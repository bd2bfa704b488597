import Mathlib.Data.Nat.Notation
import MiniProgram.Package.Version
import MiniProgram.Proofs.Text.Blank

/-!
# Semantic versions

A semantic version is three numbers, the identifiers of a pre-release, and those of a build. `text`
writes it, and no two versions are written alike but for what they are made of. `precedence` orders
versions by their numbers and the identifiers of their pre-releases.

A version that is read keeps less (`ofText?_text`): the numbers, if they all fit in 64 bits, and
whether there is a pre-release. Read `before_iff` first: it says which differences are lost.
-/

namespace MiniProgram

/-- A character of an identifier in a version. -/
def isTagChar (c : Char) : Bool :=
  c.isAlphanum || c == '-'

/-- An identifier of a pre-release. It is a number without leading zeros, or it has a letter or a
hyphen. -/
inductive Identifier where
  | numeric (value : ℕ)
  | word (text : List Char) (valid : text.all isTagChar && !text.all Char.isDigit)
  deriving DecidableEq

/-- An identifier of a build. -/
def Tag : Type :=
  { text : List Char // text ≠ [] ∧ text.all isTagChar = true }

/-- A version as semantic versioning defines it. A release has no identifiers of a pre-release. -/
structure SemanticVersion where
  major : ℕ
  minor : ℕ
  patch : ℕ
  prerelease : List Identifier
  build : List Tag

namespace Identifier

/-- The characters of an identifier. -/
def text : Identifier → List Char
  | .numeric value => Nat.toDigits 10 value
  | .word text _ => text

/-- Numbers are lower than words. Numbers are ordered by their value, words by their characters. -/
def compare : Identifier → Identifier → Ordering
  | .numeric a, .numeric b => Ord.compare a b
  | .numeric _, .word _ _ => .lt
  | .word _ _, .numeric _ => .gt
  | .word a _, .word b _ => Ord.compare a b

/-- Only equal identifiers compare as equal. -/
theorem compare_eq_iff {a b : Identifier} : a.compare b = .eq ↔ a = b := by
  cases a <;> cases b <;> simp [compare]

/-- The order of identifiers tells different ones apart. -/
instance : Std.LawfulEqCmp compare where
  compare_self := compare_eq_iff.2 rfl
  eq_of_compare := compare_eq_iff.1

/-- Two identifiers compare the other way round when they are exchanged. -/
instance : Std.OrientedCmp compare where
  eq_swap {a b} := by
    cases a <;> cases b <;> simp only [compare, Ordering.swap]
    · exact Std.OrientedCmp.eq_swap
    · exact Std.OrientedCmp.eq_swap

/-- A digit may stand in an identifier. -/
theorem isTagChar_of_isDigit {c : Char} (h : c.isDigit = true) : isTagChar c = true := by
  simp [isTagChar, Char.isAlphanum, h]

/-- A number is written with digits. -/
theorem isDigit_of_mem_toDigits {c : Char} {n : ℕ} (h : c ∈ Nat.toDigits 10 n) :
    c.isDigit = true :=
  Nat.isDigit_of_mem_toDigits (by decide) (by decide) h

/-- Different numbers are written differently. -/
theorem toDigits_injective : Function.Injective (Nat.toDigits 10) := by
  intro n m h
  rw [← @Nat.ofDigitChars_toDigits 10 n (by decide) (by decide), h,
    @Nat.ofDigitChars_toDigits 10 m (by decide) (by decide)]

/-- Identifiers are written differently. -/
theorem text_injective : Function.Injective text := by
  have hword : ∀ {value text} (valid : text.all isTagChar && !text.all Char.isDigit),
      Identifier.text (.numeric value) ≠ Identifier.text (.word text valid) := by
    intro value text valid h
    have hdigits : text.all Char.isDigit = true := by
      rw [← show Nat.toDigits 10 value = text from h]
      exact List.all_eq_true.2 fun c hc => isDigit_of_mem_toDigits hc
    rw [hdigits] at valid
    simp at valid
  intro a b h
  cases a with
  | numeric value =>
      cases b with
      | numeric other => rw [toDigits_injective h]
      | word text valid => exact absurd h (hword valid)
  | word text valid =>
      cases b with
      | numeric other => exact absurd h.symm (hword valid)
      | word other _ =>
          obtain rfl : text = other := h
          rfl

end Identifier

namespace SemanticVersion

open Identifier

/-- Identifiers behind the mark that introduces them. -/
def suffix (mark : Char) : List (List Char) → List Char
  | [] => []
  | first :: rest => mark :: ['.'].intercalate (first :: rest)

/-- The three numbers of a version. -/
def core (version : SemanticVersion) : List ℕ :=
  [version.major, version.minor, version.patch]

/-- The text of the three numbers. -/
def numbers (version : SemanticVersion) : List Char :=
  ['.'].intercalate (version.core.map (Nat.toDigits 10))

/-- The text of a version. -/
def text (version : SemanticVersion) : List Char :=
  version.numbers ++ suffix '-' (version.prerelease.map Identifier.text) ++
    suffix '+' (version.build.map Subtype.val)

/-- Identifiers are compared from the left to the right, and a longer list is higher than its front.
A version without any is a release, which is highest. -/
def comparePrerelease : List Identifier → List Identifier → Ordering
  | [], [] => .eq
  | [], _ :: _ => .gt
  | _ :: _, [] => .lt
  | first :: rest, other :: others =>
      List.compareLex Identifier.compare (first :: rest) (other :: others)

/-- The precedence of two versions. What they are built from does not count. -/
def precedence (a b : SemanticVersion) : Ordering :=
  (compare a.major b.major).then <| (compare a.minor b.minor).then <|
    (compare a.patch b.patch).then <| comparePrerelease a.prerelease b.prerelease

/-- A version whose numbers fit in 64 bits. -/
def Fits (version : SemanticVersion) : Prop :=
  ∀ number ∈ version.core, number < wordLimit 64

/-- Two pre-releases of one version. -/
def SamePreview (a b : SemanticVersion) : Prop :=
  a.core = b.core ∧ a.prerelease ≠ [] ∧ b.prerelease ≠ []

/-- Whether the numbers of a version fit is decided by evaluation. -/
instance (version : SemanticVersion) : Decidable version.Fits :=
  inferInstanceAs (Decidable (∀ number ∈ version.core, number < wordLimit 64))

/-- Whether two versions are pre-releases of one is decided by evaluation. -/
instance (a b : SemanticVersion) : Decidable (SamePreview a b) :=
  inferInstanceAs (Decidable (a.core = b.core ∧ a.prerelease ≠ [] ∧ b.prerelease ≠ []))

/-- What is kept of a version that fits. -/
def kept (version : SemanticVersion) : Version :=
  ⟨version.major, version.minor, version.patch, version.prerelease.isEmpty⟩

section Order

variable {a b : SemanticVersion}

/-- Only equal lists of identifiers compare as equal. -/
theorem comparePrerelease_eq_iff {ids others : List Identifier} :
    comparePrerelease ids others = .eq ↔ ids = others := by
  unfold comparePrerelease
  split
  · simp
  · simp
  · simp
  · exact Std.LawfulEqCmp.compare_eq_iff_eq

/-- Versions of the same precedence differ in their builds alone. -/
theorem precedence_eq_iff :
    precedence a b = .eq ↔ a.core = b.core ∧ a.prerelease = b.prerelease := by
  simp [precedence, core, comparePrerelease_eq_iff, and_assoc]

/-- Two lists of identifiers compare the other way round when they are exchanged. -/
theorem comparePrerelease_swap (ids others : List Identifier) :
    (comparePrerelease ids others).swap = comparePrerelease others ids := by
  have hlex : ∀ ids others, (List.compareLex Identifier.compare ids others).swap =
      List.compareLex Identifier.compare others ids := fun _ _ => Std.OrientedCmp.eq_swap.symm
  cases ids <;> cases others
  · rfl
  · rfl
  · rfl
  · exact hlex _ _

/-- The precedence of two versions is turned around with them. -/
theorem precedence_swap (a b : SemanticVersion) : (precedence a b).swap = precedence b a := by
  simp only [precedence, Ordering.swap_then, Nat.compare_swap, comparePrerelease_swap]

/-- Which of two pre-releases of one version comes first does not matter. -/
theorem SamePreview.symm (h : SamePreview a b) : SamePreview b a :=
  ⟨h.1.symm, h.2.2, h.2.1⟩

/-- Of two versions that fit, the lower one is kept lower unless both are pre-releases of one
version. -/
theorem before_iff : a.kept.before b.kept = true ↔ precedence a b = .lt ∧ ¬ SamePreview a b := by
  -- the flag that is kept tells a pre-release from a release, and nothing else
  have hrelease : a.prerelease.isEmpty.toNat < b.prerelease.isEmpty.toNat ↔
      comparePrerelease a.prerelease b.prerelease = .lt ∧
        ¬ (a.prerelease ≠ [] ∧ b.prerelease ≠ []) := by
    cases a.prerelease <;> cases b.prerelease <;> simp [comparePrerelease]
  simp only [Version.before, Version.ranks, kept, decide_eq_true_eq, List.cons_lt_cons_iff,
    List.lt_irrefl, and_false, or_false, hrelease, precedence, SamePreview, core,
    Ordering.then_eq_lt, Nat.compare_eq_lt, Nat.compare_eq_eq, List.cons.injEq]
  grind

end Order

section Reading

variable {parts : List (List Char)}

/-- A number that is written without leading zeros is read if it fits. -/
theorem number?_toDigits (n : ℕ) :
    Version.number? (Nat.toDigits 10 n) = if n < wordLimit 64 then some n else none := by
  have hvalue := @Nat.ofDigitChars_toDigits 10 n (by decide) (by decide)
  rw [Nat.ofDigitChars_eq_foldl] at hvalue
  have hdigits : (Nat.toDigits 10 n).all Char.isDigit = true :=
    List.all_eq_true.2 fun c hc => isDigit_of_mem_toDigits hc
  simp only [Version.number?, hvalue, hdigits, ne_eq, Nat.toDigits_ne_nil, not_false_eq_true,
    true_and]

/-- No character of an identifier is blank. -/
theorem isBlank_of_isTagChar {c : Char} (h : isTagChar c = true) : Text.isBlank c = false := by
  cases hblank : Text.isBlank c with
  | false => rfl
  | true =>
      have hother : isTagChar c = false := Text.eq_false_of_isBlank (by decide +kernel) hblank
      rw [hother] at h
      cases h

/-- An identifier is written with letters, digits and hyphens. -/
theorem isTagChar_of_mem_text {c : Char} {identifier : Identifier} (h : c ∈ identifier.text) :
    isTagChar c = true := by
  cases identifier with
  | numeric value =>
      exact isTagChar_of_isDigit (isDigit_of_mem_toDigits h)
  | word text valid =>
      rw [Bool.and_eq_true, List.all_eq_true] at valid
      exact valid.1 c h

/-- The numbers of a version are written with digits and points. -/
theorem plain_of_mem_numbers {c : Char} {version : SemanticVersion} (h : c ∈ version.numbers) :
    c ≠ 'v' ∧ c ≠ '-' ∧ c ≠ '+' ∧ Text.isBlank c = false := by
  rcases Text.exists_of_mem_intercalate h with rfl | ⟨part, hpart, hc⟩
  · decide
  · obtain ⟨number, -, rfl⟩ := List.mem_map.1 hpart
    have hdigit : c.isDigit = true := isDigit_of_mem_toDigits hc
    have hother : ∀ {d : Char}, d.isDigit = false → c ≠ d := by
      rintro d hd rfl
      exact absurd hdigit (by rw [hd]; decide)
    exact ⟨hother rfl, hother rfl, hother rfl, isBlank_of_isTagChar (isTagChar_of_isDigit hdigit)⟩

/-- What is written behind a mark is not blank, and no other plus sign. -/
theorem plain_of_mem_suffix {c mark : Char} (hmark : mark = '-' ∨ mark = '+')
    (hparts : ∀ part ∈ parts, part.all isTagChar = true) (h : c ∈ suffix mark parts) :
    (c = '+' → mark = '+') ∧ Text.isBlank c = false := by
  cases parts with
  | nil => cases h
  | cons first rest =>
      rcases List.mem_cons.1 h with rfl | h
      · exact ⟨id, by rcases hmark with rfl | rfl <;> decide⟩
      · rcases Text.exists_of_mem_intercalate h with rfl | ⟨part, hpart, hc⟩
        · exact ⟨fun hplus => absurd hplus (by decide), by decide⟩
        · have htag := List.all_eq_true.1 (hparts part hpart) c hc
          refine ⟨fun hplus => ?_, isBlank_of_isTagChar htag⟩
          rw [hplus] at htag
          exact absurd htag (by decide)

/-- The identifiers of a pre-release are written with letters, digits and hyphens. -/
theorem all_isTagChar_prerelease (version : SemanticVersion) :
    ∀ part ∈ version.prerelease.map Identifier.text, part.all isTagChar = true := by
  intro part hpart
  obtain ⟨identifier, -, rfl⟩ := List.mem_map.1 hpart
  exact List.all_eq_true.2 fun c => isTagChar_of_mem_text

/-- The identifiers of a build are written with letters, digits and hyphens. -/
theorem all_isTagChar_build (version : SemanticVersion) :
    ∀ part ∈ version.build.map Subtype.val, part.all isTagChar = true := by
  intro part hpart
  obtain ⟨tag, -, rfl⟩ := List.mem_map.1 hpart
  exact tag.2.2

/-- The numbers of a version are no empty text. -/
theorem numbers_eq (version : SemanticVersion) :
    ∃ first rest, version.numbers = first :: rest := by
  refine List.exists_cons_of_ne_nil fun hnil => ?_
  have hmem : '.' ∈ version.numbers := by simp [numbers, core, List.intercalate_cons_cons]
  rw [hnil] at hmem
  cases hmem

/-- No character of a version is blank. -/
theorem trim_text (version : SemanticVersion) : Text.trim version.text = version.text := by
  have hblank : ∀ c ∈ version.text, Text.isBlank c = false := by
    intro c hc
    rcases List.mem_append.1 hc with hc | hc
    · rcases List.mem_append.1 hc with hc | hc
      · exact (plain_of_mem_numbers hc).2.2.2
      · exact (plain_of_mem_suffix (.inl rfl) version.all_isTagChar_prerelease hc).2
    · exact (plain_of_mem_suffix (.inr rfl) version.all_isTagChar_build hc).2
  have hne : version.text ≠ [] := by
    obtain ⟨first, rest, hnumbers⟩ := version.numbers_eq
    simp [text, hnumbers]
  have hstart := Text.trimStart_append_eq_self hne hblank []
  have hend := Text.trimEnd_append_eq_self hne hblank []
  rw [List.append_nil] at hstart
  rwa [Text.trim, hstart]

/-- What is written behind a mark starts with the mark, unless it is empty. -/
theorem takeWhile_suffix (mark : Char) (parts : List (List Char)) :
    (suffix mark parts).takeWhile (· ≠ mark) = [] := by
  cases parts <;> simp [suffix]

/-- The part of a version in front of the build. -/
theorem takeWhile_plus (version : SemanticVersion) :
    (version.text.dropWhile (· = 'v')).takeWhile (· ≠ '+') =
      version.numbers ++ suffix '-' (version.prerelease.map Identifier.text) := by
  have hdrop : version.text.dropWhile (· = 'v') = version.text := by
    obtain ⟨first, rest, hnumbers⟩ := version.numbers_eq
    have hfirst : first ≠ 'v' := (plain_of_mem_numbers (hnumbers ▸ List.mem_cons_self)).1
    simp [text, hnumbers, hfirst]
  rw [hdrop, text, List.takeWhile_append_of_pos, takeWhile_suffix, List.append_nil]
  intro c hc
  rw [decide_eq_true_eq]
  rcases List.mem_append.1 hc with hc | hc
  · exact (plain_of_mem_numbers hc).2.2.1
  · intro hplus
    exact absurd ((plain_of_mem_suffix (.inl rfl) version.all_isTagChar_prerelease hc).1 hplus)
      (by decide)

/-- The part of a version in front of the identifiers of a pre-release. -/
theorem takeWhile_hyphen (version : SemanticVersion) (parts : List (List Char)) :
    (version.numbers ++ suffix '-' parts).takeWhile (· ≠ '-') = version.numbers := by
  rw [List.takeWhile_append_of_pos, takeWhile_suffix, List.append_nil]
  intro c hc
  rw [decide_eq_true_eq]
  exact (plain_of_mem_numbers hc).2.1

/-- A hyphen stands behind the numbers exactly if something is written behind one. -/
theorem contains_hyphen (version : SemanticVersion) (parts : List (List Char)) :
    (version.numbers ++ suffix '-' parts).contains '-' = !parts.isEmpty := by
  have hnumbers : '-' ∉ version.numbers := fun hmem => (plain_of_mem_numbers hmem).2.1 rfl
  cases parts <;> simp [suffix, hnumbers]

/-- Cut at the points, the numbers are the core of the version. -/
theorem splitOn_numbers (version : SemanticVersion) :
    version.numbers.splitOn '.' = version.core.map (Nat.toDigits 10) := by
  refine List.splitOn_intercalate '.' ?_ (by simp [core])
  intro part hpart hmem
  obtain ⟨number, -, rfl⟩ := List.mem_map.1 hpart
  have hdigit : '.'.isDigit = true := isDigit_of_mem_toDigits hmem
  cases hdigit

/-- What is read off the text of a version: its numbers, if they fit, and whether it is a
release. -/
theorem ofText?_text (version : SemanticVersion) :
    Version.ofText? version.text =
      if version.Fits then some version.kept else none := by
  unfold Version.ofText?
  rw [trim_text, takeWhile_plus]
  dsimp only
  rw [takeWhile_hyphen, splitOn_numbers, contains_hyphen]
  simp only [Fits, core, List.map_cons, List.map_nil, number?_toDigits, List.forall_mem_cons]
  by_cases hmajor : version.major < wordLimit 64 <;>
    by_cases hminor : version.minor < wordLimit 64 <;>
      by_cases hpatch : version.patch < wordLimit 64 <;>
        simp [hmajor, hminor, hpatch, kept]

end Reading

section Unique

/-- No point stands in an identifier. -/
theorem point_not_mem {part : List Char} (h : part.all isTagChar = true) : '.' ∉ part :=
  fun hmem => absurd (List.all_eq_true.1 h '.' hmem) (by decide)

/-- Identifiers behind a mark can be told apart. -/
theorem suffix_injective {mark : Char} {parts others : List (List Char)}
    (hparts : ∀ part ∈ parts, part.all isTagChar = true)
    (hothers : ∀ part ∈ others, part.all isTagChar = true)
    (h : suffix mark parts = suffix mark others) : parts = others := by
  cases parts with
  | nil =>
      cases others with
      | nil => rfl
      | cons other others => cases h
  | cons first parts =>
      cases others with
      | nil => cases h
      | cons other others =>
          have hsame := congrArg (List.splitOn '.') (List.cons.inj h).2
          rwa [List.splitOn_intercalate '.' (fun part hpart => point_not_mem (hparts part hpart))
              (by simp),
            List.splitOn_intercalate '.' (fun part hpart => point_not_mem (hothers part hpart))
              (by simp)] at hsame

/-- A text is the text of one version at most. -/
theorem text_injective : Function.Injective text := by
  intro a b h
  have hfront := congrArg (fun text => (text.dropWhile (· = 'v')).takeWhile (· ≠ '+')) h
  rw [takeWhile_plus, takeWhile_plus] at hfront
  have hnumbers := congrArg (List.takeWhile (· ≠ '-')) hfront
  rw [takeWhile_hyphen, takeWhile_hyphen] at hnumbers
  rw [hnumbers, List.append_cancel_left_eq] at hfront
  rw [text, text, hnumbers, hfront, List.append_cancel_left_eq] at h
  have hcore := congrArg (List.splitOn '.') hnumbers
  rw [splitOn_numbers, splitOn_numbers] at hcore
  have hprerelease :=
    suffix_injective a.all_isTagChar_prerelease b.all_isTagChar_prerelease hfront
  have hbuild := suffix_injective a.all_isTagChar_build b.all_isTagChar_build h
  replace hcore := List.map_injective_iff.2 toDigits_injective hcore
  replace hprerelease := List.map_injective_iff.2 Identifier.text_injective hprerelease
  replace hbuild := List.map_injective_iff.2 Subtype.val_injective hbuild
  obtain ⟨major, minor, patch, prerelease, build⟩ := a
  simp only [core, List.cons.injEq, and_true] at hcore
  obtain ⟨rfl, rfl, rfl⟩ := hcore
  subst hprerelease hbuild
  rfl

end Unique

end SemanticVersion

end MiniProgram
