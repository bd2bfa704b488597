import MiniProgram.SourceMap.Record
import Mathlib.Data.List.Basic

/-!
# Contents of sources

`SourceMap.embed` gives a content to every source at once. A map that is kept as a list of names
and a list of contents of any length (`Shelf`) is filled source by source: each step looks up the
content of one source, and setting the first content makes the list as long as the names. Read
`joined_fill` first: both agree, because a step changes what is looked up at its own index only
(`content?_fillAt`).

Embedding again changes nothing (`embed_embed`), and a map whose contents are all there stays as it
is, unless they are replaced (`embed_eq_self`).
-/

namespace MiniProgram.SourceMap

/-- The sources of a map as two lists. The contents may be more or fewer than the names. -/
structure Shelf where
  names : List String
  contents : List (Option String)
  deriving DecidableEq, Repr

namespace Shelf

variable {shelf : Shelf} {raw : String} {always : Bool} {index other : Nat}

/-- The content of the source at an index. -/
def content? (shelf : Shelf) (index : Nat) : Option String :=
  shelf.contents[index]?.join

/-- `resize count contents` cuts off contents or adds missing ones. -/
def resize (count : Nat) (contents : List (Option String)) : List (Option String) :=
  contents.take count ++ List.replicate (count - contents.length) none

/-- Sets the content of the source at an index. -/
def setContent (shelf : Shelf) (index : Nat) (text : String) : Shelf :=
  { shelf with contents := (resize shelf.names.length shelf.contents).set index (some text) }

/-- Gives the raw text to the source at an index, if it has no content or gets it always. -/
def fillAt (raw : String) (always : Bool) (shelf : Shelf) (index : Nat) : Shelf :=
  if always || (shelf.content? index).isNone then shelf.setContent index raw else shelf

/-- Goes through the sources one after the other. -/
def fill (raw : String) (always : Bool) (shelf : Shelf) : Shelf :=
  (List.range shelf.names.length).foldl (fillAt raw always) shelf

/-- The sources with their contents. -/
def joined (shelf : Shelf) : List Source :=
  Record.withContents (shelf.names.map some) shelf.contents

/-- The content that a source has once it was filled. -/
def filled (raw : String) (always : Bool) (content : Option String) : Option String :=
  some (if always then raw else content.getD raw)

section Steps

/-- There are as many contents as asked for. -/
theorem length_resize (count : Nat) (contents : List (Option String)) :
    (resize count contents).length = count := by
  rw [resize, List.length_append, List.length_take, List.length_replicate]
  omega

/-- Making the list as long as the names changes no content. -/
theorem join_getElem?_resize {count : Nat} {contents : List (Option String)} (h : index < count) :
    (resize count contents)[index]?.join = contents[index]?.join := by
  rw [resize]
  by_cases hlt : index < contents.length
  · rw [List.getElem?_append_left (by rw [List.length_take]; omega), List.getElem?_take_of_lt h]
  · have hlength : (contents.take count).length = contents.length := by
      rw [List.length_take]
      omega
    rw [List.getElem?_append_right (by omega), List.getElem?_eq_none (Nat.le_of_not_lt hlt),
      List.getElem?_replicate]
    split <;> rfl

/-- Setting a content changes the content of its own source alone. -/
theorem content?_setContent (hother : other < shelf.names.length) (text : String) :
    (shelf.setContent index text).content? other =
      if index = other then some text else shelf.content? other := by
  rw [content?, setContent, List.getElem?_set, length_resize]
  by_cases hsame : index = other
  · rw [if_pos hsame, if_pos hsame, if_pos (hsame ▸ hother)]
    rfl
  · rw [if_neg hsame, if_neg hsame]
    exact join_getElem?_resize hother

/-- Filling a source in keeps the names. -/
theorem names_fillAt : (shelf.fillAt raw always index).names = shelf.names := by
  rw [fillAt]
  split <;> rfl

/-- A step fills the source at its index, and leaves the others as they are. -/
theorem content?_fillAt (hother : other < shelf.names.length) :
    (shelf.fillAt raw always index).content? other =
      if index = other then filled raw always (shelf.content? other)
      else shelf.content? other := by
  rw [fillAt]
  split
  · next hset =>
      rw [content?_setContent hother]
      split
      · next hsame =>
          subst hsame
          cases always with
          | true => rfl
          | false =>
              have hnone : shelf.content? index = none := by simpa using hset
              rw [hnone]
              rfl
      · rfl
  · next hkept =>
      split
      · next hsame =>
          subst hsame
          simp only [Bool.or_eq_true, not_or, Bool.not_eq_true] at hkept
          obtain ⟨rfl, hsome⟩ := hkept
          obtain ⟨text, htext⟩ := Option.isSome_iff_exists.1 (Option.isNone_eq_false_iff.1 hsome)
          rw [htext]
          rfl
      · rfl

end Steps

section Runs

/-- After some steps the sources gone through are filled in, and the others are as they were. -/
theorem foldl_fillAt (count : Nat) (h : count ≤ shelf.names.length) :
    ((List.range count).foldl (fillAt raw always) shelf).names = shelf.names ∧
      ∀ index < shelf.names.length,
        ((List.range count).foldl (fillAt raw always) shelf).content? index =
          if index < count then filled raw always (shelf.content? index)
          else shelf.content? index := by
  induction count with
  | zero => exact ⟨rfl, fun index _ => rfl⟩
  | succ count ih =>
      obtain ⟨hnames, hcontents⟩ := ih (Nat.le_of_succ_le h)
      rw [List.range_succ, List.foldl_append, List.foldl_cons, List.foldl_nil]
      refine ⟨names_fillAt.trans hnames, fun index hindex => ?_⟩
      -- the content at the next index has not been changed before its own step
      rw [content?_fillAt (by rwa [hnames]), hcontents index hindex]
      by_cases hsame : count = index
      · subst hsame
        rw [if_pos rfl, if_neg (Nat.lt_irrefl _), if_pos (Nat.lt_succ_self _)]
      · have hiff : index < count + 1 ↔ index < count := by omega
        rw [if_neg hsame, if_congr hiff rfl rfl]

/-- Filling all sources in keeps the names. -/
theorem names_fill : (shelf.fill raw always).names = shelf.names :=
  (foldl_fillAt _ (Nat.le_refl _)).1

/-- Going through all sources fills each of them. -/
theorem content?_fill (h : index < shelf.names.length) :
    (shelf.fill raw always).content? index = filled raw always (shelf.content? index) := by
  rw [fill, (foldl_fillAt _ (Nat.le_refl _)).2 index h, if_pos h]

/-- The name and the content at an index belong together. -/
theorem getElem?_withContents (names : List String) (contents : List (Option String))
    (index : Nat) :
    (Record.withContents (names.map some) contents)[index]? =
      names[index]?.map fun name => ⟨name, contents[index]?.join⟩ := by
  induction names generalizing contents index with
  | nil => rfl
  | cons name names ih =>
      cases index with
      | zero => cases contents <;> rfl
      | succ index =>
          show (Record.withContents (names.map some) contents.tail)[index]? = _
          rw [ih]
          cases contents <;> simp

/-- A source has the name and the content at its index. -/
theorem getElem?_joined (index : Nat) :
    shelf.joined[index]? = shelf.names[index]?.map fun name => ⟨name, shelf.content? index⟩ :=
  getElem?_withContents ..

/-- Filling source by source is embedding in all sources at once. -/
theorem joined_fill :
    (shelf.fill raw always).joined = shelf.joined.map fun source =>
      { source with content := filled raw always source.content } := by
  refine List.ext_getElem? fun index => ?_
  rw [List.getElem?_map, getElem?_joined, getElem?_joined, names_fill]
  cases hname : shelf.names[index]? with
  | none => rfl
  | some name =>
      obtain ⟨hlt, -⟩ := List.getElem?_eq_some_iff.1 hname
      rw [content?_fill hlt]
      rfl

/-- A map whose contents are all there is left as it is, if they are not replaced. -/
theorem fill_eq_self (h : ∀ index < shelf.names.length, (shelf.content? index).isSome = true) :
    shelf.fill raw false = shelf := by
  have hstep : ∀ count ≤ shelf.names.length,
      (List.range count).foldl (fillAt raw false) shelf = shelf := by
    intro count hcount
    induction count with
    | zero => rfl
    | succ count ih =>
        rw [List.range_succ, List.foldl_append, ih (Nat.le_of_succ_le hcount), List.foldl_cons,
          List.foldl_nil, fillAt, if_neg]
        rw [Bool.false_or, ← Option.not_isSome, h count hcount]
        decide
  exact hstep _ (Nat.le_refl _)

end Runs

end Shelf

section Embedding

variable {map : SourceMap} {raw : String} {always : Bool}

/-- Embedding again changes nothing. -/
theorem embed_embed : (map.embed raw always).embed raw always = map.embed raw always := by
  simp only [embed, List.map_map]
  congr 2
  funext source
  cases always <;> rfl

/-- A map whose sources all have contents is left as it is, if they are not replaced. -/
theorem embed_eq_self (h : ∀ source ∈ map.sources, source.content.isSome = true) :
    map.embed raw false = map := by
  have hsources : map.sources.map (fun source =>
      { source with content := some (source.content.getD raw) }) = map.sources := by
    refine (List.map_congr_left fun source hsource => ?_).trans (List.map_id _)
    obtain ⟨text, htext⟩ := Option.isSome_iff_exists.1 (h source hsource)
    obtain ⟨name, content⟩ := source
    obtain rfl : content = some text := htext
    rfl
  simp only [embed, Bool.false_eq_true, if_false, hsources]

/-- What embedding makes of a map: it changes no more than contents, and every source has one. -/
structure Embeds (raw : String) (always : Bool) (map embedded : SourceMap) : Prop where
  rest : embedded = { map with sources := embedded.sources }
  names : embedded.sources.map Source.name = map.sources.map Source.name
  raw_content : ∀ (index : Nat) (source : Source), map.sources[index]? = some source →
    always = true ∨ source.content = none →
      embedded.sources[index]? = some ⟨source.name, some raw⟩
  own_content : ∀ (index : Nat) (source : Source) (own : String),
    map.sources[index]? = some source → always = false → source.content = some own →
      embedded.sources[index]? = some ⟨source.name, some own⟩

/-- Embedding puts the raw text in where it should, and changes nothing else. -/
theorem embeds_embed (map : SourceMap) (raw : String) (always : Bool) :
    Embeds raw always map (map.embed raw always) where
  rest := rfl
  names := by
    rw [embed, List.map_map]
    rfl
  raw_content index source hsource h := by
    rw [embed, List.getElem?_map, hsource, Option.map_some]
    rcases h with rfl | hnone
    · rfl
    · rw [hnone]
      cases always <;> rfl
  own_content index source own hsource halways hown := by
    rw [embed, List.getElem?_map, hsource, Option.map_some, halways, hown]
    rfl

/-- Embedding is what filling does, in whatever way the contents are kept. -/
theorem Shelf.joined_fill_eq {shelf : Shelf} (h : shelf.joined = map.sources) :
    (shelf.fill raw always).joined = (map.embed raw always).sources := by
  rw [joined_fill, h]
  rfl

end Embedding

end MiniProgram.SourceMap
