import MiniProgram.Proofs.Style.Lines
import MiniProgram.Proofs.Style.Token
import Mathlib.Data.List.TakeWhile

/-!
# Addresses in a stylesheet

An `Address` is a way to write an address: bare or in quotation marks, with white space around it.
A `sheet` is made of addresses and of texts in which no address starts.

Reading a sheet reads each of its addresses by itself (`localUrls_sheet`). What is read for one is
its value exactly if the address is `Clean` (`localUrls_text_eq_iff`): a closing parenthesis in the
value is taken for the end of the address, blanks and quotation marks at its ends are dropped, and
an address inside of the value is read as well.
-/

namespace MiniProgram.Style

open Text

/-- What an address starts with. -/
def opener : List Char :=
  ['u', 'r', 'l', '(']

/-- A text in which no address starts. -/
abbrev PlainText := { text : List Char // ¬ opener <:+: text }

/-- An address and how it is written. -/
structure Address where
  value : List Char
  /-- The quotation mark at both ends of the value, if there is one. -/
  quote : Option Char
  /-- The white space in front of the value. -/
  lead : List Char
  /-- The white space behind the value. -/
  trail : List Char
  isQuote_of_mem_quote : ∀ c ∈ quote, isQuote c = true
  isSpace_of_mem_lead : ∀ c ∈ lead, isSpace c = true
  isSpace_of_mem_trail : ∀ c ∈ trail, isSpace c = true
  /-- A value in quotation marks may hold any character but its quotation mark, a backslash and a
  line feed. -/
  of_mem_quoted : quote ≠ none → ∀ c ∈ value, c ∉ quote ∧ c ≠ '\\' ∧ c ≠ '\n'
  of_mem_bare : quote = none →
    ∀ c ∈ value, isSpace c = false ∧ isQuote c = false ∧ c ≠ '(' ∧ c ≠ ')' ∧ c ≠ '\\'

namespace Address

variable (address : Address)

/-- The value with its quotation marks. -/
def quoted : List Char :=
  address.quote.toList ++ (address.value ++ address.quote.toList)

/-- The text of an address. -/
def text : List Char :=
  opener ++ (address.lead ++ (address.quoted ++ (address.trail ++ [')'])))

/-- What an address adds to the list of files: its value, if that names a file. -/
def listed : List (List Char) :=
  [address.value].filter isLocal

/-- An address that is read as it is written. -/
structure Clean : Prop where
  /-- No address that names a file starts in the value. -/
  alone : localUrls (address.value ++ (address.quote.toList ++ [')'])) = []
  unclosed : isLocal address.value = true → ')' ∉ address.value
  trimmed : isLocal address.value = true → trim (unquote address.value) = address.value

end Address

/-- The stylesheet that is made of a text and of addresses with the texts behind them. -/
def sheet (first : PlainText) (rest : List (Address × PlainText)) : List Char :=
  first.1 ++ rest.flatMap fun part => part.1.text ++ part.2.1

section Search

variable {front rest gap tail : List Char} {c : Char}

/-- A pattern that does not have a character ends in front of it. -/
theorem prefix_append_cons_iff {pattern : List Char} (hc : c ∉ pattern) :
    pattern <+: front ++ c :: rest ↔ pattern <+: front := by
  refine ⟨fun h => ?_, fun h => h.trans (List.prefix_append ..)⟩
  induction pattern generalizing front with
  | nil => exact List.nil_prefix
  | cons p pattern ih =>
      simp only [List.mem_cons, not_or] at hc
      cases front with
      | nil => exact absurd (List.cons_prefix_cons.1 h).1.symm hc.1
      | cons d front =>
          rw [List.cons_append, List.cons_prefix_cons] at h
          exact List.cons_prefix_cons.2 ⟨h.1, ih hc.2 h.2⟩

/-- What follows the start of an address is read as one, and further addresses are looked for behind
the start. -/
theorem localUrls_opener (rest : List Char) :
    localUrls (opener ++ rest) = (url? rest).toList.filter isLocal ++ localUrls rest := by
  rw [localUrls, localUrls, ← List.filter_append]
  cases h : url? rest <;> simp [opener, behindUrls, h]

/-- A character with which no address starts is passed over. -/
theorem localUrls_cons (h : ¬ opener <+: c :: rest) : localUrls (c :: rest) = localUrls rest := by
  rw [localUrls, behindUrls, localUrls]
  rintro tail rfl rfl
  exact h ⟨tail, rfl⟩

/-- Every text is empty, starts an address or does not. -/
theorem text_cases {motive : List Char → Prop} (nil : motive [])
    (address : ∀ rest, motive rest → motive (opener ++ rest))
    (other : ∀ c rest, ¬ opener <+: c :: rest → motive rest → motive (c :: rest))
    (text : List Char) : motive text := by
  fun_induction behindUrls text with
  | case1 => exact nil
  | case2 rest ih => exact address rest ih
  | case3 c rest h ih =>
      refine other c rest ?_ ih
      rintro ⟨tail, htail⟩
      obtain ⟨rfl, rfl⟩ := List.cons.inj htail
      exact h tail rfl rfl

/-- A text without the first letter of an address is passed over. -/
theorem localUrls_of_not_mem (h : 'u' ∉ front) (rest : List Char) :
    localUrls (front ++ rest) = localUrls rest := by
  induction front with
  | nil => rfl
  | cons c front ih =>
      simp only [List.mem_cons, not_or] at h
      rw [List.cons_append, localUrls_cons, ih h.2]
      exact fun hleads => h.1 (List.cons_prefix_cons.1 hleads).1

/-- No address starts in a plain text, even where one follows. -/
theorem localUrls_plain_append (hplain : ¬ opener <:+: front)
    (hrest : rest = [] ∨ ∃ tail, rest = 'u' :: tail) :
    localUrls (front ++ rest) = localUrls rest := by
  induction front with
  | nil => rfl
  | cons c front ih =>
      have hfront : ¬ opener <:+: front := fun h => hplain (h.trans (List.suffix_cons ..).isInfix)
      rw [List.cons_append, localUrls_cons, ih hfront]
      intro hleads
      refine hplain (List.IsPrefix.isInfix ?_)
      obtain rfl | ⟨tail, rfl⟩ := hrest
      · rwa [List.append_nil] at hleads
      · rw [opener, List.cons_prefix_cons] at hleads ⊢
        exact ⟨hleads.1, (prefix_append_cons_iff (by decide)).1 hleads.2⟩

end Search

section Reading

variable {front text gap rest : List Char}

/-- The address that is read in front of a closing parenthesis. -/
def read (text : List Char) : List Char :=
  trim (unquote (trim (text.takeWhile (· ≠ ')'))))

/-- A blank differs from every character that is none. -/
theorem ne_of_mem_blanks {c d : Char} (hgap : ∀ c ∈ gap, isBlank c = true)
    (hd : isBlank d = false) (hc : c ∈ gap) : c ≠ d := by
  rintro rfl
  rw [hgap c hc] at hd
  cases hd

/-- A closing parenthesis behind a text changes nothing about what is in front of the first one. -/
theorem takeWhile_append_paren (front rest : List Char) :
    (front ++ ')' :: rest).takeWhile (· ≠ ')') = front.takeWhile (· ≠ ')') := by
  rw [List.takeWhile_append]
  split
  · next hlength =>
      rw [List.takeWhile_cons_of_neg (by simp), List.append_nil]
      exact ((List.takeWhile_prefix _).eq_of_length hlength).symm
  · rfl

/-- In front of a closing parenthesis an address is read. -/
theorem url?_append_paren (front rest : List Char) :
    url? (front ++ ')' :: rest) = some (read front) := by
  rw [url?, if_pos (by simp), takeWhile_append_paren, read]

/-- A closing parenthesis ends the address that it stands behind, and no address goes on behind
it. -/
theorem localUrls_append_paren (text rest : List Char) :
    localUrls (text ++ ')' :: rest) = localUrls (text ++ [')']) ++ localUrls rest := by
  induction text using text_cases with
  | nil =>
      have hparen : ∀ rest, localUrls (')' :: rest) = localUrls rest :=
        @localUrls_of_not_mem [')'] (by simp)
      rw [List.nil_append, List.nil_append, hparen, hparen]
      rfl
  | address text ih =>
      rw [List.append_assoc, List.append_assoc, localUrls_opener, localUrls_opener,
        url?_append_paren, url?_append_paren, ih, List.append_assoc]
  | other c text h ih =>
      have hother : ∀ rest, ¬ opener <+: c :: (text ++ ')' :: rest) := fun rest hleads => by
        rw [← List.cons_append, prefix_append_cons_iff (by decide)] at hleads
        exact h hleads
      rw [List.cons_append, List.cons_append, localUrls_cons (hother _),
        localUrls_cons (hother _), ih]

/-- Blanks behind an address are not read. -/
theorem read_append_blanks (hgap : ∀ c ∈ gap, isBlank c = true) (text : List Char) :
    read (text ++ gap) = read text := by
  rw [read, read, List.takeWhile_append]
  split
  · next hlength =>
      have hparen : gap.takeWhile (· ≠ ')') = gap := by
        rw [← List.append_nil gap, List.takeWhile_append_of_pos, List.takeWhile_nil]
        exact fun c hc => by simpa using ne_of_mem_blanks hgap (by decide) hc
      rw [(List.takeWhile_prefix _).eq_of_length hlength, hparen, trim_append_blanks hgap]
  · rfl

/-- Blanks in front of a closing parenthesis do not matter. -/
theorem localUrls_append_blanks (hgap : ∀ c ∈ gap, isBlank c = true) (text : List Char) :
    localUrls (text ++ (gap ++ [')'])) = localUrls (text ++ [')']) := by
  have hclass : ∀ c, isBlank c = false → c ∉ gap := fun c hc hmem =>
    ne_of_mem_blanks hgap hc hmem rfl
  induction text using text_cases with
  | nil =>
      have hnone : ∀ text, 'u' ∉ text → localUrls text = localUrls [] := fun text h => by
        rw [← List.append_nil text, localUrls_of_not_mem h]
      rw [List.nil_append, List.nil_append, hnone [')'] (by simp),
        hnone _ (by simp [hclass 'u' (by decide)])]
  | address text ih =>
      rw [List.append_assoc, List.append_assoc, localUrls_opener, localUrls_opener, ih,
        ← List.append_assoc, url?_append_paren, url?_append_paren, read_append_blanks hgap]
  | other c text h ih =>
      have hother : ∀ gap, (∀ d ∈ opener, d ∉ gap) → ¬ opener <+: c :: (text ++ (gap ++ [')'])) := by
        intro gap hgap hleads
        cases gap with
        | nil =>
            rw [List.nil_append, ← List.cons_append, prefix_append_cons_iff (by decide)] at hleads
            exact h hleads
        | cons d gap =>
            rw [List.cons_append, ← List.cons_append, prefix_append_cons_iff] at hleads
            · exact h hleads
            · exact fun hd => hgap d hd List.mem_cons_self
      have hplain : ¬ opener <+: c :: (text ++ [')']) := hother [] (by simp)
      rw [List.cons_append, List.cons_append, localUrls_cons (hother gap ?_), ih,
        localUrls_cons hplain]
      have hopener : opener.all (fun d => !isBlank d) = true := by decide
      exact fun d hd => hclass d (by simpa using List.all_eq_true.1 hopener d hd)

/-- Taking quotation marks off only leaves characters out. -/
theorem unquote_sublist (text : List Char) : (unquote text).Sublist text := by
  have h := List.dropWhile_suffix isQuote (l := (text.dropWhile isQuote).reverse)
  have hleads := List.reverse_prefix.2 h
  rw [List.reverse_reverse] at hleads
  exact hleads.sublist.trans (List.dropWhile_suffix _).sublist

/-- What is read off a text stands in front of its first closing parenthesis. -/
theorem read_sublist (text : List Char) : (read text).Sublist (text.takeWhile (· ≠ ')')) :=
  (trim_sublist _).trans ((unquote_sublist _).trans (trim_sublist _))

/-- An address that is read inside of a text is shorter. -/
theorem length_le_of_mem_localUrls {url : List Char} (h : url ∈ localUrls (text ++ [')'])) :
    url.length + 4 ≤ text.length := by
  induction text using text_cases with
  | nil =>
      rw [List.nil_append, ← List.append_nil [')'], localUrls_of_not_mem (by simp)] at h
      exact absurd h (by simp [localUrls, behindUrls])
  | address text ih =>
      rw [List.append_assoc, localUrls_opener, url?_append_paren, List.mem_append,
        List.mem_filter] at h
      rw [List.length_append]
      obtain ⟨hread, -⟩ | h := h
      · have hlength := (read_sublist text).length_le.trans (List.takeWhile_prefix _).length_le
        rw [Option.toList_some, List.mem_singleton] at hread
        rw [hread]
        exact Nat.add_comm 4 text.length ▸ Nat.add_le_add_right hlength 4
      · exact (ih h).trans (Nat.le_add_left ..)
  | other c text hother ih =>
      rw [List.cons_append, localUrls_cons] at h
      · exact (ih h).trans (Nat.le_succ _)
      · rw [← List.cons_append, prefix_append_cons_iff (by decide)]
        exact hother

/-- Blanks in front of an address are not read. -/
theorem read_blanks_append (hgap : ∀ c ∈ gap, isBlank c = true) (text : List Char) :
    read (gap ++ text) = read text := by
  rw [read, List.takeWhile_append_of_pos, trim_blanks_append hgap, read]
  exact fun c hc => by simpa using ne_of_mem_blanks hgap (by decide) hc

end Reading

section Unquoting

variable {text rest : List Char}

/-- Nothing is taken off a text without quotation marks. -/
theorem unquote_eq_self (h : ∀ c ∈ text, isQuote c = false) : unquote text = text := by
  have hdrop : ∀ text : List Char, (∀ c ∈ text, isQuote c = false) →
      text.dropWhile isQuote = text := fun text h => by
    cases text with
    | nil => rfl
    | cons c text => exact List.dropWhile_cons_of_neg (by simp [h c List.mem_cons_self])
  rw [unquote, hdrop text h, hdrop _ (by simpa using h), List.reverse_reverse]

/-- Quotation marks around a text do not matter. -/
theorem unquote_quoted {c : Char} (hc : isQuote c = true) (text : List Char) :
    unquote (c :: (text ++ [c])) = unquote text := by
  rw [unquote, List.dropWhile_cons_of_pos hc, List.dropWhile_append]
  split
  · next hempty =>
      rw [unquote, List.isEmpty_iff.1 hempty]
      simp [hc]
  · rw [List.reverse_append, List.reverse_singleton, List.singleton_append,
      List.dropWhile_cons_of_pos hc, unquote]

/-- Unquoting stops in front of what is no quotation mark. -/
theorem exists_unquote_append (hne : text ≠ []) (h : ∀ c ∈ text, isQuote c = false)
    (quotes : Option Char) (hquotes : ∀ c ∈ quotes, isQuote c = true) (rest : List Char) :
    ∃ behind, unquote (quotes.toList ++ (text ++ rest)) = text ++ behind := by
  have hdrop : ∀ text rest : List Char, text ≠ [] → (∀ c ∈ text, isQuote c = false) →
      (text ++ rest).dropWhile isQuote = text ++ rest := fun text rest hne h => by
    cases text with
    | nil => exact absurd rfl hne
    | cons c text => exact List.dropWhile_cons_of_neg (by simp [h c List.mem_cons_self])
  rw [unquote, List.dropWhile_append_of_pos (by simpa using hquotes), hdrop text rest hne h,
    List.reverse_append, List.dropWhile_append]
  split
  · have hreverse := hdrop text.reverse [] (by simpa using hne) (by simpa using h)
    rw [List.append_nil] at hreverse
    exact ⟨[], by rw [hreverse, List.reverse_reverse, List.append_nil]⟩
  · exact ⟨_, by rw [List.reverse_append, List.reverse_reverse]⟩

end Unquoting

/-- A quotation mark is no blank, no parenthesis and not the first letter of an address. -/
theorem class_of_isQuote {c : Char} (h : isQuote c = true) :
    isBlank c = false ∧ c ≠ ')' ∧ c ≠ 'u' := by
  simp only [isQuote, Bool.or_eq_true, decide_eq_true_eq] at h
  rcases h with rfl | rfl <;> decide

/-- The starts of addresses that name no file have no blanks, quotation marks or closing
parentheses. -/
theorem remoteStarts_class : ∀ start ∈ remoteStarts, start.toList ≠ [] ∧
    ∀ c ∈ start.toList, isBlank c = false ∧ isQuote c = false ∧ c ≠ ')' := by
  have hall : remoteStarts.all (fun start => start.toList ≠ [] &&
      start.toList.all fun c => !isBlank c && (!isQuote c && c ≠ ')')) = true := by decide
  simpa using hall

namespace Address

variable (address : Address)

/-- An address adds what is read off its value, and the addresses that start within the value. -/
theorem localUrls_text :
    localUrls address.text =
      [read address.quoted].filter isLocal ++
        localUrls (address.value ++ (address.quote.toList ++ [')'])) := by
  have hlead : ∀ c ∈ address.lead, isBlank c = true := fun c hc =>
    isBlank_of_isSpace (address.isSpace_of_mem_lead c hc)
  have htrail : ∀ c ∈ address.trail, isBlank c = true := fun c hc =>
    isBlank_of_isSpace (address.isSpace_of_mem_trail c hc)
  have hquote : 'u' ∉ address.quote.toList := fun h =>
    (class_of_isQuote (address.isQuote_of_mem_quote 'u' (by simpa using h))).2.2 rfl
  have hread : url? (address.lead ++ (address.quoted ++ (address.trail ++ [')']))) =
      some (read address.quoted) := by
    rw [← List.append_assoc, ← List.append_assoc, url?_append_paren, read_append_blanks htrail,
      read_blanks_append hlead]
  rw [text, localUrls_opener, hread, localUrls_of_not_mem, localUrls_append_blanks htrail, quoted,
    List.append_assoc, localUrls_of_not_mem hquote, List.append_assoc]
  · rfl
  · exact fun h => ne_of_mem_blanks hlead (by decide) h rfl

/-- Unless a closing parenthesis is in the way, the value is read without its blanks and quotation
marks. -/
theorem read_quoted (h : ')' ∉ address.value) :
    read address.quoted = trim (unquote address.value) := by
  have hwhole : ∀ text : List Char, ')' ∉ text → text.takeWhile (· ≠ ')') = text := fun text h => by
    rw [← List.append_nil text, List.takeWhile_append_of_pos, List.takeWhile_nil]
    exact fun c hc => by simpa using fun hparen : c = ')' => h (hparen ▸ hc)
  cases hquote : address.quote with
  | none =>
      have hbare := fun c hc => (address.of_mem_bare hquote c hc).2.1
      rw [quoted, hquote, Option.toList_none, List.nil_append, List.append_nil, read,
        hwhole _ h, unquote_eq_self hbare, unquote_eq_self, trim_trim]
      exact fun c hc => hbare c ((trim_sublist _).subset hc)
  | some q =>
      have hq : isQuote q = true := address.isQuote_of_mem_quote q hquote
      obtain ⟨hblank, hparen, -⟩ := class_of_isQuote hq
      rw [quoted, hquote, Option.toList_some, List.singleton_append, read, hwhole]
      · have htrim := trim_between hblank hblank [] address.value []
        rw [List.nil_append] at htrim
        rw [htrim]
        exact congrArg trim (unquote_quoted hq _)
      · simpa [hparen.symm] using h

/-- An address names no file exactly if it is empty or starts as a remote one. -/
theorem isLocal_eq_false_iff {url : List Char} :
    isLocal url = false ↔ url = [] ∨ ∃ start ∈ remoteStarts, start.toList <+: url := by
  simp only [isLocal, Bool.and_eq_false_iff, decide_eq_false_iff_not, Decidable.not_not,
    Bool.not_eq_false', List.any_eq_true, List.isPrefixOf_iff_prefix]

/-- An address that names no file is read as one that names no file. -/
theorem isLocal_read_quoted (h : isLocal address.value = false) :
    isLocal (read address.quoted) = false := by
  obtain hnil | ⟨start, hmem, rest, hvalue⟩ := isLocal_eq_false_iff.1 h
  · rw [address.read_quoted (by simp [hnil]), hnil]
    rfl
  · refine isLocal_eq_false_iff.2 (.inr ⟨start, hmem, ?_⟩)
    obtain ⟨hne, hclass⟩ := remoteStarts_class start hmem
    have hquotes : ∀ c ∈ address.quote.toList, isBlank c = false ∧ c ≠ ')' := fun c hc =>
      have hmarks := class_of_isQuote (address.isQuote_of_mem_quote c (by simpa using hc))
      ⟨hmarks.1, hmarks.2.1⟩
    have hfront : ∀ c ∈ address.quote.toList ++ start.toList, isBlank c = false ∧ c ≠ ')' :=
      fun c hc => (List.mem_append.1 hc).elim (hquotes c) fun hc =>
        ⟨(hclass c hc).1, (hclass c hc).2.2⟩
    obtain ⟨behind, hbehind⟩ := exists_unquote_append hne (fun c hc => (hclass c hc).2.1)
      address.quote address.isQuote_of_mem_quote
      (trimEnd ((rest ++ address.quote.toList).takeWhile (· ≠ ')')))
    rw [read, quoted, ← hvalue, List.append_assoc, ← List.append_assoc,
      List.takeWhile_append_of_pos (fun c hc => by simpa using (hfront c hc).2),
      trim_append_eq (by simp [hne]) (fun c hc => (hfront c hc).1), List.append_assoc, hbehind,
      trim_append_eq hne fun c hc => (hclass c hc).1]
    exact List.prefix_append ..

/-- An address that names a file is clean if it is read as its value, and nothing else is read. -/
theorem clean_iff_of_isLocal (hlocal : isLocal address.value = true) :
    address.Clean ↔
      localUrls (address.value ++ (address.quote.toList ++ [')'])) = [] ∧
        read address.quoted = address.value := by
  refine ⟨fun h => ⟨h.alone, ?_⟩, fun ⟨halone, hread⟩ => ?_⟩
  · rw [address.read_quoted (h.unclosed hlocal), h.trimmed hlocal]
  · have hunclosed : ')' ∉ address.value := fun hmem => by
      rw [← hread] at hmem
      simpa using List.mem_takeWhile_imp ((read_sublist _).subset hmem)
    exact ⟨halone, fun _ => hunclosed, fun _ => address.read_quoted hunclosed ▸ hread⟩

/-- What is read for an address is its value exactly if the address is clean. -/
theorem localUrls_text_eq_iff : localUrls address.text = address.listed ↔ address.Clean := by
  rw [localUrls_text, listed]
  cases hlocal : isLocal address.value with
  | false =>
      rw [List.filter_singleton, List.filter_singleton, address.isLocal_read_quoted hlocal, hlocal]
      refine ⟨fun h => ⟨h, ?_, ?_⟩, fun h => h.alone⟩
      all_goals
        intro htrue
        rw [hlocal] at htrue
        cases htrue
  | true =>
      rw [address.clean_iff_of_isLocal hlocal, List.filter_singleton, List.filter_singleton, hlocal]
      cases hread : isLocal (read address.quoted) with
      | true => simp [and_comm]
      | false =>
          refine ⟨fun h => ?_, fun h => ?_⟩
          · have hmem : address.value ∈
                localUrls (address.value ++ address.quote.toList ++ [')']) := by
              rw [List.append_assoc]
              exact (List.nil_append _).symm.trans h ▸ List.mem_singleton_self _
            have hlength := length_le_of_mem_localUrls hmem
            have hquote : address.quote.toList.length ≤ 1 := by cases address.quote <;> simp
            rw [List.length_append] at hlength
            omega
          · rw [h.2, hlocal] at hread
            cases hread

end Address

/-- Reading a stylesheet reads each of its addresses by itself. -/
theorem localUrls_sheet (first : PlainText) (rest : List (Address × PlainText)) :
    localUrls (sheet first rest) = rest.flatMap fun part => localUrls part.1.text := by
  induction rest generalizing first with
  | nil =>
      rw [sheet, List.flatMap_nil, localUrls_plain_append first.2 (.inl rfl)]
      rfl
  | cons part rest ih =>
      have hpart : sheet first (part :: rest) = first.1 ++ (part.1.text ++ sheet part.2 rest) := by
        rw [sheet, List.flatMap_cons, List.append_assoc, sheet]
      have htext : ∀ rest, part.1.text ++ rest = opener ++ (part.1.lead ++ (part.1.quoted ++
          part.1.trail)) ++ ')' :: rest := fun rest => by
        simp [Address.text]
      have halone := htext []
      rw [List.append_nil] at halone
      have hfirst : localUrls (first.1 ++ (part.1.text ++ sheet part.2 rest)) =
          localUrls (part.1.text ++ sheet part.2 rest) :=
        localUrls_plain_append first.2 (.inr ⟨_, rfl⟩)
      rw [hpart, hfirst, htext, localUrls_append_paren, ih, ← halone, List.flatMap_cons]

/-- Reading a stylesheet reads each of its addresses by itself, and what is read for one is its
value exactly if the address is clean. So what is read for a stylesheet of clean addresses are those
of their values that name files, in order. -/
theorem localUrls_sheet_of_clean (first : PlainText) (rest : List (Address × PlainText)) :
    localUrls (sheet first rest) = rest.flatMap (fun part => localUrls part.1.text) ∧
      (∀ address : Address, localUrls address.text = address.listed ↔ address.Clean) ∧
      ((∀ part ∈ rest, part.1.Clean) →
        localUrls (sheet first rest) = rest.flatMap fun part => part.1.listed) := by
  refine ⟨localUrls_sheet first rest, Address.localUrls_text_eq_iff, fun hclean => ?_⟩
  rw [localUrls_sheet]
  exact List.flatMap_congr fun part hpart =>
    (Address.localUrls_text_eq_iff part.1).2 (hclean part hpart)

section Addresses

/-- The address `url( 'img/a.png' )`. -/
def spacedAddress : Address where
  value := "img/a.png".toList
  quote := some '\''
  lead := [' ']
  trail := [' ']
  isQuote_of_mem_quote := by simp [isQuote]
  isSpace_of_mem_lead := List.forall_mem_singleton.2 (by decide)
  isSpace_of_mem_trail := List.forall_mem_singleton.2 (by decide)
  of_mem_quoted _ := List.forall_iff_forall_mem.1 (by decide)
  of_mem_bare := nofun

/-- The address `url("bg (1).png")`. -/
def numberedAddress : Address where
  value := "bg (1).png".toList
  quote := some '"'
  lead := []
  trail := []
  isQuote_of_mem_quote := by simp [isQuote]
  isSpace_of_mem_lead := List.forall_mem_nil _
  isSpace_of_mem_trail := List.forall_mem_nil _
  of_mem_quoted _ := List.forall_iff_forall_mem.1 (by decide)
  of_mem_bare := nofun

/-- An address in quotation marks with white space around it is read as it is written. -/
theorem localUrls_sheet_of_clean_spaced :
    spacedAddress.Clean ∧
      localUrls (sheet ⟨"a \x7b b: ".toList, by decide +kernel⟩
        [(spacedAddress, ⟨"\x7d".toList, by decide +kernel⟩)]) = ["img/a.png".toList] := by
  have hclean : spacedAddress.Clean := ⟨by decide, by decide, by decide⟩
  refine ⟨hclean, ?_⟩
  refine ((localUrls_sheet_of_clean _ _).2.2 fun part hpart => ?_).trans (by decide)
  rw [List.mem_singleton] at hpart
  rw [hpart]
  exact hclean

/-- A closing parenthesis in quotation marks is taken for the end of the address. -/
theorem localUrls_sheet_ne :
    localUrls (sheet ⟨".a \x7b background: ".toList, by decide +kernel⟩
        [(numberedAddress, ⟨"; \x7d".toList, by decide +kernel⟩)]) = ["bg (1".toList] ∧
      numberedAddress.listed = ["bg (1).png".toList] := by
  decide +kernel

end Addresses

end MiniProgram.Style
