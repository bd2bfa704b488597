import MiniProgram.Proofs.Bytes.Import

/-!
# Stripping unused imports at byte offsets

`stripBytes source regions` goes twice over the import declarations of a source, which are given by
the offsets between which they stand. The first time it leaves all of them out, and in what remains
it looks for their names. The second time it leaves the unused ones out. A declaration that is left
out may neither be empty nor start in front of the end of an earlier one (`cutOut`).

Read `stripBytes_eq` first: no step fails, and the result is that of `strip`. What it means that a
text needs a name is said by `isReferencedAt_iff_run`.
-/

namespace MiniProgram.Bytes

open Source Text

/-- Whether a word stands as a whole at one of the offsets at which it occurs. -/
def wordAmong (text word : List Char) : List ℕ → Except Fault Bool
  | [] => .ok false
  | index :: later => do
    if boundary (← sliceTo text index).getLast? then
      if boundary (← sliceFrom text (index + size word)).head? then return true
      else wordAmong text word later
    else wordAmong text word later

/-- Whether a text needs a name. -/
def isReferencedAt (name text : List Char) : Except Fault Bool :=
  if factories.contains name then .ok true else wordAmong text name (occurrences name text)

/-- Whether a text needs none of some names. -/
def allUnreferencedAt (text : List Char) : List (List Char) → Except Fault Bool
  | [] => .ok true
  | name :: later => do
    if ← isReferencedAt name text then return false else allUnreferencedAt text later

/-- Whether a declaration binds names, all of them well formed, of which a text needs none. -/
def isUnusedAt (text : List Char) (names : List (List Char)) : Except Fault Bool :=
  if names ≠ [] && names.all isName then allUnreferencedAt text names else .ok false

/-- The source from an offset on, without the declarations whose names pass a test. -/
def cutOut (source : List Char) (drops : List (List Char) → Except Fault Bool) (cursor : ℕ) :
    List Import → Except Fault (List Char)
  | [] => sliceFrom source cursor
  | found :: later => do
    if ← drops found.names then
      if cursor ≤ found.start ∧ found.start < found.stop then
        return (← slice source cursor found.start) ++ (← cutOut source drops found.stop later)
      else throw (.overlap found.start found.stop)
    else cutOut source drops cursor later

/-- Drops the unused import declarations of a source. -/
def stripBytes (source : List Char) (regions : List Region) : Except Fault (List Char) := do
  let imports ← imports? source regions
  let body ← cutOut source (fun _ => .ok true) 0 imports
  cutOut source (isUnusedAt body) 0 imports

section Words

variable {name text : List Char}

/-- Looking at the offsets of a word one by one finds what searching the text for it finds. -/
theorem wordAmong_eq (hname : name ≠ []) (front text : List Char) :
    wordAmong (front ++ text) name (occurrencesFrom name (size front) text) =
      .ok (occursFrom name front.getLast? text) := by
  induction text using search_induction hname generalizing front with
  | nil => rw [occurrencesFrom_nil hname, occursFrom_nil, wordAmong]
  | found behind ih =>
      have hend : sliceFrom (front ++ (name ++ behind)) (size front + size name) = .ok behind := by
        rw [← List.append_assoc, ← size_append, sliceFrom_append]
      have hnext := ih (front ++ name)
      rw [List.append_assoc, size_append, List.getLast?_append_of_ne_nil front hname] at hnext
      rw [occurrencesFrom_found hname, occursFrom_found hname]
      simp only [wordAmong, sliceTo_append, hend, hnext, bind, Except.bind, pure, Except.pure]
      cases boundary front.getLast? <;> cases boundary behind.head? <;> rfl
  | other c rest hstart ih =>
      have hnext := ih (front ++ [c])
      rw [occurrencesFrom_other hstart, occursFrom_other hstart]
      simpa using hnext

/-- A word that is not empty is looked for between characters. -/
theorem isReferencedAt_eq (hname : name ≠ []) (text : List Char) :
    isReferencedAt name text = .ok (isReferenced name text) := by
  rw [isReferencedAt, isReferenced]
  cases factories.contains name with
  | true => rfl
  | false => exact wordAmong_eq hname [] text

/-- An occurrence of a name with a boundary in front of it is found: one that reaches into it would
end in front of it with a character of the name. -/
theorem size_mem_occurrences {before after : List Char} (hname : isName name = true)
    (hbefore : boundary before.getLast? = true) :
    size before ∈ occurrences name (before ++ (name ++ after)) := by
  obtain ⟨hne, hall⟩ := isName_iff.1 hname
  rcases mem_occurrencesFrom_or hne rfl 0 with hfound | ⟨index, hindex, hlt, hreach⟩
  · rwa [Nat.zero_add] at hfound
  · obtain ⟨front, behind, htext, rfl⟩ := exists_of_mem_occurrencesFrom hne hindex
    rcases List.append_eq_append_iff.1 htext with ⟨inside, rfl, -⟩ | ⟨inside, rfl, hinside⟩
    · rw [size_append] at hlt
      omega
    · rw [size_append] at hlt hreach
      have hpart : inside <+: name := by
        rcases List.append_eq_append_iff.1 hinside with ⟨rest, rfl, -⟩ | ⟨rest, rfl, -⟩
        · rw [size_append] at hreach
          omega
        · exact List.prefix_append inside rest
      have hleft : inside ≠ [] := by
        rintro rfl
        exact absurd hlt (by simp)
      have hinner : isName inside = true :=
        isName_iff.2 ⟨hleft, fun c hc => hall c (hpart.subset hc)⟩
      rw [List.getLast?_append_of_ne_nil _ hleft, boundary_getLast? hinner] at hbefore
      cases hbefore

/-- A text needs a name exactly if the name is one of the factories, or one of the maximal runs of
identifier characters of the text. The occurrences that are looked at do not overlap, but wherever
the name stands and no identifier character is in front of it, one of them is there. -/
theorem isReferencedAt_iff_run (hname : isName name = true) (text : List Char) :
    isReferencedAt name text = .ok (decide (name ∈ factories ∨ name ∈ identifiers text)) ∧
      (occurrences name text).Pairwise (fun index later => index + size name ≤ later) ∧
      ∀ before after, text = before ++ (name ++ after) → boundary before.getLast? = true →
        size before ∈ occurrences name text := by
  have hne := (isName_iff.1 hname).1
  refine ⟨?_, pairwise_occurrencesFrom hne 0 text, ?_⟩
  · have hneeded : isReferenced name text = true ↔
        name ∈ factories ∨ name ∈ identifiers text := by
      rw [isReferenced, Bool.or_eq_true, List.contains_iff_mem, occurs_iff_mem hname]
    rw [isReferencedAt_eq hne]
    exact congrArg Except.ok (Bool.eq_iff_iff.2 (hneeded.trans decide_eq_true_iff.symm))
  · rintro before after rfl hbefore
    exact size_mem_occurrences hname hbefore

/-- The name occurs three times, and the second time overlaps with the first. -/
theorem isReferencedAt_iff_run_overlapping :
    isReferencedAt "a$a".toList "éa$a$a a$a".toList = .ok true ∧
      8 ∈ occurrences "a$a".toList "éa$a$a a$a".toList := by
  obtain ⟨hneeded, -, hfound⟩ :=
    isReferencedAt_iff_run (by decide : isName "a$a".toList = true) "éa$a$a a$a".toList
  exact ⟨hneeded.trans (congrArg Except.ok (by decide +kernel)),
    hfound "éa$a$a ".toList [] rfl (by decide)⟩

/-- Whether a text needs none of some names is found out by looking for each. -/
theorem allUnreferencedAt_eq {names : List (List Char)} (hnames : names.all isName = true) :
    allUnreferencedAt text names = .ok (names.all fun name => !isReferenced name text) := by
  induction names with
  | nil => rfl
  | cons name later ih =>
      rw [List.all_cons, Bool.and_eq_true] at hnames
      obtain ⟨hname, hlater⟩ := hnames
      rw [allUnreferencedAt, isReferencedAt_eq (isName_iff.1 hname).1, List.all_cons]
      cases isReferenced name text with
      | true => rfl
      | false => exact ih hlater

/-- Looking at offsets finds a declaration unused if it is. -/
theorem isUnusedAt_eq (text : List Char) (declaration : Declaration) :
    isUnusedAt text declaration.names = .ok (isUnused text declaration) := by
  rw [isUnusedAt, isUnused]
  split
  · next hnames =>
      rw [allUnreferencedAt_eq (Bool.and_eq_true_iff.1 hnames).2, hnames, Bool.true_and]
  · next hnames => rw [Bool.eq_false_iff.2 hnames, Bool.false_and]

end Words

section Cutting

variable {glyphs cut pending : List Glyph} {index : ℕ} {pieces : List Segment}

/-- The pieces that stay when some declarations are dropped. -/
def kept (drop : Declaration → Bool) (pieces : List Segment) : List Segment :=
  pieces.filter fun
    | .other _ => true
    | .imports declaration => !drop declaration

/-- What is not copied yet is copied up to a declaration that is dropped, and copying goes on behind
it. -/
theorem cutOut_dropped {drops : List (List Char) → Except Fault Bool} {text behind : List Glyph}
    {names : List (List Char)} {later : List Import} {others : List Char}
    (hdrops : drops names = .ok true) (hne : text ≠ [])
    (h : Stands glyphs index (cut ++ pending) (text ++ behind))
    (hlater : cutOut (chars glyphs) drops (index + size (chars text)) later = .ok others) :
    cutOut (chars glyphs) drops (size (chars cut))
      (⟨index, index + size (chars text), names⟩ :: later) = .ok (chars pending ++ others) := by
  have hsize : 0 < size (chars text) := by
    rw [Nat.pos_iff_ne_zero, ne_eq, size_eq_zero_iff, chars, List.map_eq_nil_iff]
    exact hne
  have hcut : Stands glyphs (size (chars cut)) cut (pending ++ (text ++ behind)) :=
    ⟨by rw [h.text, List.append_assoc], rfl⟩
  have hindex : index = size (chars cut) + size (chars pending) := by
    rw [h.offset, chars_append, size_append]
  rw [cutOut, hdrops]
  simp only [bind, Except.bind, if_true, hlater]
  rw [if_pos ⟨by omega, by omega⟩, hindex, hcut.slice_eq]
  rfl

/-- Declarations that take up text stand behind each other, so cutting them out never fails.
`pending` is the text that is not copied yet. -/
theorem cutOut_eq {drops : List (List Char) → Except Fault Bool} {drop : Declaration → Bool}
    (hdrops : ∀ declaration, drops declaration.names = .ok (drop declaration))
    (hne : ∀ declaration, .imports declaration ∈ pieces → declaration.text ≠ [])
    (h : Stands glyphs index (cut ++ pending) (pieces.flatMap Segment.text)) :
    cutOut (chars glyphs) drops (size (chars cut)) (placed index pieces) =
      .ok (chars (pending ++ (kept drop pieces).flatMap Segment.text)) := by
  induction pieces generalizing index cut pending with
  | nil =>
      have hcut : Stands glyphs (size (chars cut)) cut pending :=
        ⟨by simpa using h.text, rfl⟩
      rw [placed, cutOut, hcut.sliceFrom_eq, kept, List.filter_nil, List.flatMap_nil,
        List.append_nil]
  | cons piece pieces ih =>
      have hlater := fun declaration hmem => hne declaration (List.mem_cons_of_mem piece hmem)
      rw [List.flatMap_cons] at h
      cases piece with
      | other g =>
          have hnext : Stands glyphs (index + g.char.utf8Size) (cut ++ (pending ++ [g]))
              (pieces.flatMap Segment.text) := by
            rw [← List.append_assoc]
            exact Stands.step h
          rw [placed, ih hlater hnext]
          simp [kept, Segment.text]
      | imports declaration =>
          have hstart : Stands glyphs index (cut ++ pending)
              (declaration.text ++ pieces.flatMap Segment.text) := h
          have hnext := hstart.move
          rw [placed]
          cases hdrop : drop declaration with
          | true =>
              have hend : Stands glyphs (index + size (chars declaration.text))
                  (cut ++ pending ++ declaration.text ++ []) (pieces.flatMap Segment.text) := by
                rwa [List.append_nil]
              have hrest := ih hlater hend
              rw [← hnext.offset] at hrest
              rw [cutOut_dropped ((hdrops declaration).trans (congrArg _ hdrop))
                (hne declaration List.mem_cons_self) hstart hrest]
              simp [kept, hdrop]
          | false =>
              rw [List.append_assoc] at hnext
              rw [cutOut, hdrops, hdrop]
              simp only [bind, Except.bind]
              rw [if_neg Bool.false_ne_true, ih hlater hnext]
              simp [kept, Segment.text, hdrop]

/-- Every declaration among the pieces of a text has some text. -/
theorem text_ne_nil_of_mem_segmentsFrom (before : List Char) (glyphs : List Glyph) :
    ∀ declaration, .imports declaration ∈ segmentsFrom before glyphs → declaration.text ≠ [] := by
  intro declaration hmem
  fun_induction segmentsFrom before glyphs with
  | case1 => cases hmem
  | case2 before g tail first rest found ih =>
      obtain hfirst | hlater := List.mem_cons.1 hmem
      · obtain rfl : declaration = first := Segment.imports.inj hfirst
        obtain ⟨middle, hmiddle, -⟩ := exists_text_of_declaration? found
        rw [hmiddle]
        exact List.cons_ne_nil g middle
      · exact ih hlater
  | case3 before g tail found ih =>
      obtain hother | hlater := List.mem_cons.1 hmem
      · cases hother
      · exact ih hlater

/-- Without any declaration the text between them is left. -/
theorem chars_kept (pieces : List Segment) :
    chars ((kept (fun _ => true) pieces).flatMap Segment.text) = body pieces := by
  induction pieces with
  | nil => rfl
  | cons piece pieces ih =>
      cases piece with
      | other g => simpa [kept, body, Segment.text] using ih
      | imports declaration => simpa [kept, body] using ih

/-- Cutting declarations out by their offsets leaves the pieces that are kept. -/
theorem cutOut_segments {drops : List (List Char) → Except Fault Bool} {drop : Declaration → Bool}
    (hdrops : ∀ declaration, drops declaration.names = .ok (drop declaration))
    (glyphs : List Glyph) :
    cutOut (chars glyphs) drops 0 (placed 0 (segments glyphs)) =
      .ok (chars ((kept drop (segments glyphs)).flatMap Segment.text)) := by
  have hstart : Stands glyphs 0 ([] ++ []) ((segments glyphs).flatMap Segment.text) := by
    rw [text_segments]
    exact .start glyphs
  exact cutOut_eq hdrops (text_ne_nil_of_mem_segmentsFrom [] glyphs) hstart

/-- Stripping never fails: the declarations stand behind each other, and all offsets are between
characters. -/
theorem stripBytes_eq (hscan : scan (chars glyphs) = some glyphs) :
    stripBytes (chars glyphs) (bytes glyphs) = .ok (chars (strip glyphs)) := by
  have hbody : cutOut (chars glyphs) (fun _ => .ok true) 0 (placed 0 (segments glyphs)) =
      .ok (body (segments glyphs)) := by
    rw [cutOut_segments fun _ => rfl, chars_kept]
  simp only [stripBytes, imports?_eq hscan, hbody, cutOut_segments (isUnusedAt_eq _), bind,
    Except.bind]
  rfl

end Cutting

end MiniProgram.Bytes
