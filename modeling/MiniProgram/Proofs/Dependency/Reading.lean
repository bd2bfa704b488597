import Mathlib.Data.List.Infix
import MiniProgram.Proofs.Dependency.Lexer
import MiniProgram.Proofs.Loader.Collaborators
import MiniProgram.Proofs.Table

/-!
# The module that replaces an app, read back

Read `run_module_reads_iff` first: the text that a run returns reads as one comment with an import
of each dependency behind it, if and only if no dependency has a quote or a line break in its name
and the path of the app holds nothing that closes a comment.

A name is written with every backslash doubled, which is enough for backslashes only. A quote ends
the literal too early, so that its value is too short, and a line break ends the reading
(`ne_imports_of_read`). Where the path closes the comment, what follows it cannot be read without
another comment (`two_le_countP_of_read`).
-/

namespace MiniProgram.Dependency

/-- The tokens of statements that import modules for their side effects. -/
def imports (names : List String) : List Token :=
  names.flatMap fun name => [.importWord, .literal (units name.toList), .semicolon]

section Literals

/-- A character that a literal in single quotes holds as it is, or doubled if it is a backslash. -/
def isPlain (c : Char) : Bool :=
  c != '\'' && c != '\n' && c != '\r'

variable {c : Char} {text rest : List Char} {value : List Nat}

/-- The units of two texts stand one after the other. -/
theorem units_append (text rest : List Char) : units (text ++ rest) = units text ++ units rest := by
  simp [units]

/-- Every character has at least one unit. -/
theorem length_le_length_units (text : List Char) : text.length ≤ (units text).length := by
  induction text with
  | nil => exact Nat.zero_le _
  | cons c text ih =>
      have hone : 1 ≤ (unitsOf c.toNat).length := by
        rw [unitsOf]
        split <;> simp
      have hcons : units (c :: text) = unitsOf c.toNat ++ units text := rfl
      rw [hcons, List.length_append, List.length_cons]
      omega

/-- Backslashes are doubled part by part. -/
theorem doubled_append (text rest : List Char) :
    doubled (text ++ rest) = doubled text ++ doubled rest := by
  induction text with
  | nil => rfl
  | cons c text ih =>
      rw [List.cons_append, doubled, doubled, ih]
      split <;> rfl

/-- Plain text with its backslashes doubled adds its own units to a literal. -/
theorem read_doubled (h : ∀ c ∈ text, isPlain c = true) (value : List Nat) (rest : List Char) :
    read (.literal .single value) (doubled text ++ rest) =
      read (.literal .single (value ++ units text)) rest := by
  induction text generalizing value with
  | nil => simp [doubled, units]
  | cons c text ih =>
      have hvalue : value ++ units (c :: text) = value ++ unitsOf c.toNat ++ units text := by
        simp [units]
      rw [hvalue, ← ih (fun d hd => h d (List.mem_cons_of_mem _ hd)), doubled]
      split
      · next hc =>
          subst hc
          have hescape : step (.literal .single value) '\\' =
              some ([], .escape .single value) := rfl
          have hstep : step (.escape .single value) '\\' =
              some ([], .literal .single (value ++ unitsOf '\\'.toNat)) := rfl
          rw [List.cons_append, List.cons_append, read_cons_silent hescape, read_cons_silent hstep]
      · next hc =>
          have hplain := h c List.mem_cons_self
          have hstep : step (.literal .single value) c =
              some ([], .literal .single (value ++ unitsOf c.toNat)) := by
            simp_all [isPlain, step, stepLiteral, Quote.char]
          rw [List.cons_append, read_cons_silent hstep]

/-- A single quote closes a literal in single quotes. -/
theorem read_quote (value : List Nat) (rest : List Char) :
    read (.literal .single value) ('\'' :: rest) =
      (read .between rest).map (.literal value :: ·) := by
  have hstep : step (.literal .single value) '\'' = some ([.literal value], .between) := rfl
  exact read_cons hstep rest

/-- No line ends in a literal in single quotes. -/
theorem read_lineBreak (hc : c = '\n' ∨ c = '\r') (value : List Nat) (rest : List Char) :
    read (.literal .single value) (c :: rest) = none :=
  read_of_step_eq_none (by rcases hc with rfl | rfl <;> rfl) rest

end Literals

section Statements

variable {name : String} {rest : List Char}

/-- The word `import` with a quote behind it starts a literal. -/
theorem read_importWord (rest : List Char) :
    read .between ("import '".toList ++ rest) =
      (read (.literal .single []) rest).map (.importWord :: ·) := by
  have hword : advance .between "import '".toList = some ([.importWord], .literal .single []) := by
    decide
  exact read_append hword rest

/-- A statement is the word `import` and the name in quotes, with its backslashes doubled. -/
theorem toList_statement (name : String) (rest : List Char) :
    (statement name).toList ++ rest =
      "import '".toList ++ (doubled name.toList ++ '\'' :: ';' :: rest) := by
  simp [statement, doubleBackslashes]

/-- A statement for a name without quotes and line ends is read as the import of that name. -/
theorem read_statement (h : ∀ c ∈ name.toList, isPlain c = true) (rest : List Char) :
    read .between ((statement name).toList ++ rest) =
      (read .between rest).map (imports [name] ++ ·) := by
  have hend : step .between ';' = some ([.semicolon], .between) := rfl
  rw [toList_statement, read_importWord, read_doubled h, read_quote, read_cons hend]
  simp [imports, Function.comp_def]

/-- A name with a quote or a line break does not come back from its statement: the quote ends the
literal too early, and a line break ends the reading. -/
theorem ne_imports_of_read {c : Char} {found : List Token} (hc : c ∈ name.toList)
    (hplain : isPlain c = false) (h : read .between ((statement name).toList ++ rest) = some found)
    (names : List String) : found ≠ imports (name :: names) := by
  obtain ⟨d, hd⟩ := Option.isSome_iff_exists.1
    (List.find?_isSome.2 ⟨c, hc, by simpa using hplain⟩ : (name.toList.find? (!isPlain ·)).isSome)
  obtain ⟨hd, before, behind, hname, hbefore⟩ := List.find?_eq_some_iff_append.1 hd
  have hne : d ≠ '\\' := by rintro rfl; exact absurd hd (by decide)
  rw [toList_statement, read_importWord, hname, doubled_append, doubled, if_neg hne,
    List.append_assoc, read_doubled (by simpa using hbefore), List.nil_append] at h
  by_cases hquote : d = '\''
  · subst hquote
    rw [List.cons_append, read_quote, Option.map_map] at h
    obtain ⟨more, -, rfl⟩ := Option.map_eq_some_iff.1 h
    intro heq
    have hunits : units before = units name.toList := by
      simp only [imports, List.flatMap_cons, Function.comp_apply, List.cons_append,
        List.cons.injEq, Token.literal.injEq] at heq
      exact heq.2.1
    rw [hname, units_append] at hunits
    have hlonger := length_le_length_units ('\'' :: behind)
    rw [List.self_eq_append_right.1 hunits] at hlonger
    simp at hlonger
  · have hbreak : d = '\n' ∨ d = '\r' := by simp_all [isPlain, or_iff_not_imp_left]
    rw [List.cons_append, read_lineBreak hbreak] at h
    cases h

/-- Import statements read back as the imports of the names that they are about if and only if all
names are plain. -/
theorem read_statements_iff (names : List String) :
    read .between ("\n".intercalate (names.map statement)).toList = some (imports names) ↔
      ∀ name ∈ names, ∀ c ∈ name.toList, isPlain c = true := by
  induction names with
  | nil => simp [read, finish, imports]
  | cons name names ih =>
      obtain ⟨rest, htext, hrest⟩ : ∃ rest,
          ("\n".intercalate ((name :: names).map statement)).toList =
            (statement name).toList ++ rest ∧
          read .between rest = read .between ("\n".intercalate (names.map statement)).toList := by
        cases names with
        | nil => exact ⟨[], by simp, by simp⟩
        | cons second names =>
            have hgap : step .between '\n' = some ([], .between) := rfl
            refine ⟨_, by rw [List.map_cons, List.map_cons, String.intercalate_cons_cons,
              String.toList_append, String.toList_append, List.append_assoc], ?_⟩
            exact read_cons_silent hgap _
      rw [htext, List.forall_mem_cons, ← ih]
      by_cases hname : ∀ c ∈ name.toList, isPlain c = true
      · have hcons : some (imports (name :: names)) =
            (some (imports names)).map (imports [name] ++ ·) := by simp [imports]
        rw [read_statement hname, hrest, and_iff_right hname, hcons]
        exact (Option.map_injective (List.append_right_injective _)).eq_iff
      · refine iff_of_false (fun hread => ?_) (fun h => hname h.1)
        push Not at hname
        obtain ⟨c, hc, hplain⟩ := hname
        exact ne_imports_of_read hc (by simpa using hplain) hread names rfl

end Statements

section Comments

/-- What stands in front of the path in the comment of a module. -/
def preface : List Char := " Generated by JSX2MP AppLoader, sourceFile: ".toList

/-- What stands behind the path in the comment of a module, with what closes the comment. -/
def closing : List Char := ['.', ' ', '*', '/', '\n']

variable {phase : Phase} {text rest : List Char} {found : List Token}

/-- A text without a star goes on the comment that it stands in. -/
theorem read_of_star_not_mem {path : List Char} (h : '*' ∉ path) (text rest : List Char) :
    read (.comment text) (path ++ rest) = read (.comment (text ++ path)) rest := by
  induction path generalizing text with
  | nil => simp
  | cons c path ih =>
      obtain ⟨hc, hpath⟩ := not_or.1 (mt List.mem_cons.2 h)
      have hstep : step (.comment text) c = some ([], .comment (text ++ [c])) := by
        simp [step, Ne.symm hc]
      rw [List.cons_append, read_cons_silent hstep, ih hpath]
      simp

/-- A comment that holds nothing that closes it ends where it is closed. -/
theorem read_comment (path : List Char) (rest : List Char) :
    ∀ text, (¬ ['*', '/'] <:+: path → read (.comment text) (path ++ (closing ++ rest)) =
        (read .between rest).map (.comment (text ++ path ++ ['.'] ++ [' ']) :: ·)) ∧
      (¬ ['*', '/'] <:+: '*' :: path → read (.star text) (path ++ (closing ++ rest)) =
        (read .between rest).map (.comment (text ++ '*' :: path ++ ['.'] ++ [' ']) :: ·)) := by
  induction path with
  | nil =>
      refine fun text => ⟨fun _ => ?_, fun _ => ?_⟩
      · have hclose : advance (.comment text) closing =
            some ([.comment (text ++ ['.'] ++ [' '])], .between) := rfl
        rw [List.append_nil]
        exact read_append hclose rest
      · have hclose : advance (.star text) closing =
            some ([.comment (text ++ ['*', '.'] ++ [' '])], .between) := rfl
        rw [List.append_assoc text ['*'] ['.']]
        exact read_append hclose rest
  | cons c path ih =>
      refine fun text => ⟨fun h => ?_, fun h => ?_⟩ <;>
        simp only [List.infix_cons_iff, not_or, List.cons_prefix_cons] at h
      · by_cases hstar : c = '*'
        · subst hstar
          have hstep : step (.comment text) '*' = some ([], .star text) := rfl
          rw [List.cons_append, read_cons_silent hstep]
          exact (ih text).2 (by simpa [List.infix_cons_iff] using h)
        · have hstep : step (.comment text) c = some ([], .comment (text ++ [c])) := by
            simp [step, hstar]
          rw [List.cons_append, read_cons_silent hstep, (ih _).1 h.2]
          simp
      · by_cases hstar : c = '*'
        · subst hstar
          have hstep : step (.star text) '*' = some ([], .star (text ++ ['*'])) := rfl
          rw [List.cons_append, read_cons_silent hstep,
            (ih _).2 (by simpa [List.infix_cons_iff] using h.2)]
          simp
        · have hslash : c ≠ '/' := by
            rintro rfl
            simp at h
          have hstep : step (.star text) c = some ([], .comment (text ++ ['*', c])) := by
            simp [step, hstar, hslash]
          rw [List.cons_append, read_cons_silent hstep, (ih _).1 h.2.2]
          simp

/-- A dot belongs to a literal or to a comment, wherever the reader is. -/
theorem step_dot {done : List Token} {next : Phase} (h : step phase '.' = some (done, next)) :
    (∃ quote value, next = .literal quote value) ∨ (∃ text, next = .comment text) ∨
      ∃ text, next = .lineComment text := by
  have hbetween : stepBetween '.' = none := by decide
  have hliteral : ∀ quote value, stepLiteral quote value '.' =
      some ([], .literal quote (value ++ unitsOf '.'.toNat)) := by
    rintro (_ | _) value <;> rfl
  have hhex : Json.hexValue? '.' = none := by decide
  cases phase with
  | between => simp [step, hbetween] at h
  | importing count =>
      have hletter : importLetters[count]? ≠ some '.' := fun heq =>
        absurd (List.mem_of_getElem? heq) (by decide)
      grind [step]
  | hex quote value left code => simp [step, stepHex, hhex] at h
  | unicode quote value => simp [step, stepHex, hhex] at h
  | braced quote value code => simp [step, stepBraced, hhex] at h
  | _ => grind [step, stepEscape, isLineEnd]

/-- What closes a comment cannot be read without a comment, wherever the reader is. -/
theorem countP_pos_of_closing (h : read phase (closing ++ rest) = some found) :
    0 < found.countP Token.isComment := by
  have hdot : read phase ('.' :: ' ' :: '*' :: '/' :: '\n' :: rest) = some found := h
  obtain ⟨done, next, more, hstep, hmore, rfl⟩ := exists_of_read_cons hdot
  rw [List.countP_append]
  refine Nat.lt_of_lt_of_le ?_ (Nat.le_add_left _ _)
  rcases step_dot hstep with ⟨quote, value, rfl⟩ | ⟨text, rfl⟩ | ⟨text, rfl⟩
  · cases quote <;> simp [read, step, stepLiteral, Quote.char] at hmore
  · have hends : read (.comment text) (' ' :: '*' :: '/' :: '\n' :: rest) =
        (read .between rest).map (.comment (text ++ [' ']) :: ·) := by
      have hclose : advance (.comment text) [' ', '*', '/', '\n'] =
          some ([.comment (text ++ [' '])], .between) := rfl
      exact read_append hclose rest
    obtain ⟨_, -, rfl⟩ := Option.map_eq_some_iff.1 (hends.symm.trans hmore)
    simp [Token.isComment]
  · have hends : read (.lineComment text) (' ' :: '*' :: '/' :: '\n' :: rest) =
        (read .between rest).map (.lineComment (text ++ [' '] ++ ['*'] ++ ['/']) :: ·) := by
      have hclose : advance (.lineComment text) [' ', '*', '/', '\n'] =
          some ([.lineComment (text ++ [' '] ++ ['*'] ++ ['/'])], .between) := rfl
      exact read_append hclose rest
    obtain ⟨_, -, rfl⟩ := Option.map_eq_some_iff.1 (hends.symm.trans hmore)
    simp [Token.isComment]

/-- So whatever stands in front of it, there is a comment in what is read. -/
theorem countP_pos_of_read (text : List Char)
    (h : read phase (text ++ (closing ++ rest)) = some found) :
    0 < found.countP Token.isComment := by
  induction text generalizing phase found with
  | nil => exact countP_pos_of_closing h
  | cons c text ih =>
      obtain ⟨done, next, more, -, hmore, rfl⟩ := exists_of_read_cons h
      rw [List.countP_append]
      exact Nat.lt_of_lt_of_le (ih hmore) (Nat.le_add_left _ _)

/-- A comment that holds what closes it ends too early, and another comment has to follow. -/
theorem two_le_countP_of_read (path : List Char) :
    ∀ text found, (['*', '/'] <:+: path →
        read (.comment text) (path ++ (closing ++ rest)) = some found →
          2 ≤ found.countP Token.isComment) ∧
      (['*', '/'] <:+: '*' :: path → read (.star text) (path ++ (closing ++ rest)) = some found →
        2 ≤ found.countP Token.isComment) := by
  induction path with
  | nil => simp [List.infix_cons_iff]
  | cons c path ih =>
      refine fun text found => ⟨fun h hread => ?_, fun h hread => ?_⟩
      · by_cases hstar : c = '*'
        · subst hstar
          have hstep : step (.comment text) '*' = some ([], .star text) := rfl
          rw [List.cons_append, read_cons_silent hstep] at hread
          exact (ih _ _).2 h hread
        · have hstep : step (.comment text) c = some ([], .comment (text ++ [c])) := by
            simp [step, hstar]
          rw [List.cons_append, read_cons_silent hstep] at hread
          exact (ih _ _).1 (by simpa [List.infix_cons_iff, Ne.symm hstar] using h) hread
      · by_cases hslash : c = '/'
        · subst hslash
          have hstep : step (.star text) '/' = some ([.comment text], .between) := rfl
          rw [List.cons_append, read_cons hstep] at hread
          obtain ⟨more, hmore, rfl⟩ := Option.map_eq_some_iff.1 hread
          have hpos := countP_pos_of_read path hmore
          rw [List.countP_append]
          simp [Token.isComment]
          omega
        · have hinfix : ['*', '/'] <:+: c :: path := by
            simpa [List.infix_cons_iff, Ne.symm hslash] using h
          by_cases hstar : c = '*'
          · subst hstar
            have hstep : step (.star text) '*' = some ([], .star (text ++ ['*'])) := rfl
            rw [List.cons_append, read_cons_silent hstep] at hread
            exact (ih _ _).2 hinfix hread
          · have hstep : step (.star text) c = some ([], .comment (text ++ ['*', c])) := by
              simp [step, hstar, hslash]
            rw [List.cons_append, read_cons_silent hstep] at hread
            exact (ih _ _).1 (by simpa [List.infix_cons_iff, Ne.symm hstar] using hinfix) hread

end Comments

section Modules

variable {resource : Path} {dependencies : Dependencies}

/-- No comment stands in import statements. -/
theorem countP_imports (names : List String) : (imports names).countP Token.isComment = 0 := by
  induction names with
  | nil => rfl
  | cons name names ih => simpa [imports, Token.isComment] using ih

/-- The text of a module is a comment with the path, and the statements behind it. -/
theorem toList_moduleText (resource : Path) (dependencies : Dependencies) :
    (moduleText resource dependencies).toList =
      '/' :: '*' :: (preface ++ (resource.text.toList ++
        (closing ++ (statements dependencies).toList))) := by
  have happend : ∀ a b c d : String,
      (a ++ b ++ c ++ d).toList = a.toList ++ (b.toList ++ (c.toList ++ d.toList)) := by simp
  have hfront : "/* Generated by JSX2MP AppLoader, sourceFile: ".toList =
      ['/', '*'] ++ preface := by decide
  have hback : ". */\n".toList = closing := by decide
  refine (happend _ _ _ _).trans ?_
  rw [hfront, hback, List.append_assoc]
  rfl

/-- The tokens of a module are what is read of its path inside of a comment, and behind that. -/
theorem tokens_moduleText (resource : Path) (dependencies : Dependencies) :
    tokens (moduleText resource dependencies) =
      read (.comment preface)
        (resource.text.toList ++ (closing ++ (statements dependencies).toList)) := by
  have hslash : step .between '/' = some ([], .slash) := rfl
  have hopen : step .slash '*' = some ([], .comment []) := rfl
  have hpreface : '*' ∉ preface := by decide
  rw [tokens, toList_moduleText, read_cons_silent hslash, read_cons_silent hopen,
    read_of_star_not_mem hpreface, List.nil_append]

/-- The text of a module reads as one comment with the imports behind it if and only if nothing in
the path closes a comment and all names are plain. -/
theorem tokens_moduleText_iff (resource : Path) (dependencies : Dependencies) :
    (∃ text, tokens (moduleText resource dependencies) =
        some (.comment text :: imports dependencies.keys)) ↔
      ¬ ['*', '/'] <:+: resource.text.toList ∧
        ∀ name ∈ dependencies.keys, ∀ c ∈ name.toList, isPlain c = true := by
  rw [tokens_moduleText]
  by_cases hpath : ['*', '/'] <:+: resource.text.toList
  · refine iff_of_false ?_ (fun h => h.1 hpath)
    rintro ⟨text, hread⟩
    have htwo := (two_le_countP_of_read _ _ _).1 hpath hread
    rw [List.countP_cons, countP_imports] at htwo
    simp [Token.isComment] at htwo
  · rw [(read_comment _ _ _).1 hpath, ← read_statements_iff, and_iff_right hpath, statements]
    constructor
    · rintro ⟨text, hread⟩
      obtain ⟨more, hmore, hcons⟩ := Option.map_eq_some_iff.1 hread
      rw [hmore, (List.cons.inj hcons).2]
    · exact fun hread => ⟨_, by rw [hread, Option.map_some]⟩

end Modules

end MiniProgram.Dependency

namespace MiniProgram.Loader

open Dependency

variable {σ : Type} {loader : Loader (StateM σ)} {context : LoaderContext} {raw text : String}
  {state last : σ}

/-- The text that a run returns reads as one comment with an import of each dependency behind it, in
the order of the table, if and only if nothing in the path of the app closes a comment and no
dependency has a single quote or a line break in its name. A table of entries has its keys in
increasing order. -/
theorem run_module_reads_iff (h : (loader.run context raw).run.run state = (.ok text, last)) :
    ∃ compilation style produced,
      (loader.produce context raw).run.run state = (.ok (compilation, style), produced) ∧
      ((∃ comment, tokens text = some (.comment comment :: imports compilation.dependencies.keys)) ↔
        ¬ ['*', '/'] <:+: context.resource.text.toList ∧
          ∀ name ∈ compilation.dependencies.keys, ∀ c ∈ name.toList, isPlain c = true) ∧
      ∀ entries, compilation.dependencies = Table.ofEntries entries →
        compilation.dependencies.keys.Pairwise (· < ·) ∧
          ∀ name, name ∈ compilation.dependencies.keys ↔ name ∈ entries.map Prod.fst := by
  obtain ⟨compilation, style, produced, hproduced, -, rfl⟩ := exists_of_run_ok h
  refine ⟨compilation, style, produced, hproduced, tokens_moduleText_iff _ _, ?_⟩
  rintro entries hentries
  rw [hentries]
  exact Table.keys_ofEntries entries

section Imported

/-- The response of a compiler program that says that an app depends on one module. The name is
written as it stands in the response. -/
def importing (name : String) : String :=
  "\x7b\"code\":\"X\",\"imported\":\x7b\"" ++ name ++ "\":true\x7d\x7d"

/-- A name with backslashes comes back from the text of the module. -/
theorem run_module_reads_backslash :
    ∃ text last comment,
      ((installed (importing "C:\\\\app")).run (developing ".css") "").run.run (project []) =
        (.ok text, last) ∧
      tokens text = some (.comment comment :: imports ["C:\\app"]) := by
  rcases hrun : ((installed (importing "C:\\\\app")).run (developing ".css") "").run.run
    (project []) with ⟨result, last⟩
  obtain rfl : result = .ok (moduleText ⟨"src/app.js"⟩ [("C:\\app", true)]) :=
    (congrArg Prod.fst hrun).symm.trans (by decide +kernel)
  obtain ⟨compilation, style, produced, hproduced, hreads, -⟩ := run_module_reads_iff hrun
  have hproduct : (.ok (compilation, style) : Except LoaderFault _) =
      .ok (⟨"X", none, [], [("C:\\app", true)]⟩, ⟨"", []⟩) :=
    (congrArg Prod.fst hproduced).symm.trans (by decide +kernel)
  obtain ⟨rfl, rfl⟩ := Prod.mk.inj (Except.ok.inj hproduct)
  have hplain : ("C:\\app".toList.all isPlain) = true := by decide
  obtain ⟨comment, hcomment⟩ := hreads.2 ⟨by decide, by simpa [Table.keys] using hplain⟩
  exact ⟨_, last, comment, rfl, hcomment⟩

/-- A name with a quote breaks the text of the module. -/
theorem run_module_breaks :
    ∃ text last,
      ((installed (importing "it's")).run (developing ".css") "").run.run (project []) =
        (.ok text, last) ∧
      text = "/* Generated by JSX2MP AppLoader, sourceFile: src/app.js. */\nimport 'it's';" ∧
      tokens text = none := by
  rcases hrun : ((installed (importing "it's")).run (developing ".css") "").run.run (project [])
    with ⟨result, last⟩
  obtain rfl : result = .ok (moduleText ⟨"src/app.js"⟩ [("it's", true)]) :=
    (congrArg Prod.fst hrun).symm.trans (by decide +kernel)
  exact ⟨_, last, rfl, by decide +kernel, by decide +kernel⟩

end Imported

end MiniProgram.Loader
