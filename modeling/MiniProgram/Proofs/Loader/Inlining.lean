import MiniProgram.Proofs.Base64
import MiniProgram.Proofs.Loader.Stages
import MiniProgram.Proofs.SourceMap.Contents

/-!
# Source maps inside code

Read `write_inlines_map` first: a development build writes a code file that can be taken apart
again. The last comment with a source map in it stands where the code ends, even if the code itself
ends with such a comment, since what follows is on one line. Behind it stands the base64 form of the
text of the map, whose sources all have contents.
-/

namespace MiniProgram.Output

open FileTree

/-- `LastSplit marker text before behind` says that a text is made of two parts with the marker
between them, and that the marker stands nowhere further behind in it. -/
structure LastSplit (marker text before behind : String) : Prop where
  text_eq : text = before ++ marker ++ behind
  last : ∀ front rest, text = front ++ marker ++ rest → front.length ≤ before.length

section Splitting

variable {marker before behind : String}

/-- A marker stands last in front of a text in which its first character does not occur, if that
character does not occur again in the marker. -/
theorem lastSplit_append {c : Char} {tail : List Char} (hmarker : marker.toList = c :: tail)
    (htail : c ∉ tail) (hbehind : c ∉ behind.toList) :
    LastSplit marker (before ++ marker ++ behind) before behind where
  text_eq := rfl
  last front rest h := by
    have hlists := congrArg String.toList h
    simp only [String.toList_append, hmarker, List.append_assoc, List.cons_append] at hlists
    rw [← String.length_toList, ← String.length_toList]
    by_contra hlonger
    rcases List.append_eq_append_iff.1 hlists with ⟨more, hfront, hrest⟩ | ⟨more, hbefore, -⟩
    · cases more with
      | nil =>
          rw [hfront, List.append_nil] at hlonger
          exact hlonger (Nat.le_refl _)
      | cons c' more =>
          -- the other marker would start in what follows the first character of this one
          obtain ⟨-, hbehind'⟩ := List.cons.inj hrest
          have hmem : c ∈ tail ++ behind.toList := by
            rw [hbehind']
            simp
          exact (List.mem_append.1 hmem).elim htail hbehind
    · rw [hbefore, List.length_append] at hlonger
      omega

end Splitting

section Writing

variable {σ : Type} {files : σ → FileTree} {host : Host (StateM σ)} {state last : σ}
  {artifacts : Artifacts} {raw : String} {options : OutputOptions} {map : SourceMap}
  {result : Except OutputFault Unit}

/-- In watch mode the map stands behind the code. -/
theorem codeText_eq (hmode : options.mode = .watch) (hmap : artifacts.map = some map) :
    codeText artifacts raw options =
      artifacts.code ++ inlineMap (map.embed raw options.isTypeScript) := by
  rw [codeText, hmode, hmap]

/-- A comment with a map stands last behind the code that it is appended to. -/
theorem lastSplit_inlineMap (code : String) (map : SourceMap) :
    LastSplit mapComment (code ++ inlineMap map) code
      (String.ofList (Base64.encode map.write.toUTF8.toList)) := by
  rw [inlineMap, ← String.append_assoc]
  refine lastSplit_append (c := '\n') rfl (by decide) ?_
  rw [String.toList_ofList]
  exact Base64.feed_not_mem_encode _

/-- A code file that is written stands there until the stylesheet takes its place. -/
theorem readText_of_write (hhost : host.Atomic files)
    (h : (write host artifacts raw options).run.run state = (result, last)) :
    (files state).Grows [] (files last) ∧ (∃ fault, result = .error ⟨options.codePath, fault⟩) ∨
      ∃ middle, (writeFile host options.codePath (codeText artifacts raw options)).run.run state =
          (.ok (), middle) ∧
        (files middle).readText options.codePath = .ok (codeText artifacts raw options) ∧
        ((files last).locate options.codePath ≠ (files last).locate options.stylePath →
          (files last).readText options.codePath = .ok (codeText artifacts raw options)) := by
  rw [write] at h
  rcases hcode : (writeFile host options.codePath (codeText artifacts raw options)).run.run state
    with ⟨codeResult, middle⟩
  rcases writeFile_cases hhost hcode with ⟨⟨fault, rfl⟩, hgrows⟩ | ⟨rfl, place, -, hwritten⟩
  · rw [run_bind_of_error hcode] at h
    obtain ⟨rfl, rfl⟩ := Prod.mk.inj h
    exact .inl ⟨hgrows, fault, rfl⟩
  · rw [run_bind_of_ok hcode] at h
    refine .inr ⟨middle, rfl, hwritten.readText, fun hapart => ?_⟩
    rcases writeFile_cases hhost h with ⟨-, hgrows⟩ | ⟨-, location, hgrows, hstyle⟩
    · exact (hwritten.grow hgrows List.not_mem_nil).readText
    · by_cases hsame : place = location
      · subst hsame
        have hreplaced : (files last).Written options.codePath place
            (styleText artifacts options).toUTF8 := ⟨hgrows.target hwritten.target, hstyle.file⟩
        exact absurd (hreplaced.locate.trans hstyle.locate.symm) hapart
      · exact (hwritten.grow hgrows (by simpa using hsame)).readText

/-- A development build either fails before there is a code file, or it writes one whose last
comment with a map stands behind the code, and which stays unless the stylesheet goes to the same
place. What the comment holds is the text of a map that differs from the map of the code in its
contents only: the raw text where there was none or where it has to be, and else the ones that were
there. Embedding source by source comes to the same, and embedding again changes nothing. -/
theorem write_inlines_map (hhost : host.Atomic files) (hmode : options.mode = .watch)
    (hmap : artifacts.map = some map)
    (h : (write host artifacts raw options).run.run state = (result, last)) :
    ((files state).Grows [] (files last) ∧ (∃ fault, result = .error ⟨options.codePath, fault⟩) ∨
      ∃ text payload middle,
        (writeFile host options.codePath text).run.run state = (.ok (), middle) ∧
        (files middle).readText options.codePath = .ok text ∧
        ((files last).locate options.codePath ≠ (files last).locate options.stylePath →
          (files last).readText options.codePath = .ok text) ∧
        LastSplit mapComment text artifacts.code payload ∧
        Base64.decode payload.toList =
          some (map.embed raw options.isTypeScript).write.toUTF8.toList) ∧
    SourceMap.Embeds raw options.isTypeScript map (map.embed raw options.isTypeScript) ∧
    (map.embed raw options.isTypeScript).embed raw options.isTypeScript =
      map.embed raw options.isTypeScript ∧
    (options.isTypeScript = false → (∀ source ∈ map.sources, source.content.isSome = true) →
      map.embed raw options.isTypeScript = map) ∧
    ∀ shelf : SourceMap.Shelf, shelf.joined = map.sources →
      (shelf.fill raw options.isTypeScript).joined =
        (map.embed raw options.isTypeScript).sources ∧
      ((shelf.fill raw options.isTypeScript).fill raw options.isTypeScript).joined =
        (shelf.fill raw options.isTypeScript).joined ∧
      (options.isTypeScript = false →
        (∀ index < shelf.names.length, (shelf.content? index).isSome = true) →
          shelf.fill raw options.isTypeScript = shelf) := by
  refine ⟨?_, SourceMap.embeds_embed map raw _, SourceMap.embed_embed, fun hscript hcontents => ?_,
    fun shelf hshelf => ⟨SourceMap.Shelf.joined_fill_eq hshelf, ?_, fun hscript hcontents => ?_⟩⟩
  · rcases readText_of_write hhost h with hfailed | ⟨middle, hwritten, hmiddle, hlast⟩
    · exact .inl hfailed
    · rw [codeText_eq hmode hmap] at hwritten hmiddle hlast
      refine .inr ⟨_, _, middle, hwritten, hmiddle, hlast, lastSplit_inlineMap _ _, ?_⟩
      rw [String.toList_ofList]
      exact Base64.decode_encode _
  · rw [hscript]
    exact SourceMap.embed_eq_self hcontents
  · have hfilled : (shelf.fill raw options.isTypeScript).joined =
        (map.embed raw options.isTypeScript).sources := SourceMap.Shelf.joined_fill_eq hshelf
    rw [SourceMap.Shelf.joined_fill_eq hfilled, SourceMap.embed_embed, hfilled]
  · rw [hscript]
    exact SourceMap.Shelf.fill_eq_self hcontents

/-- A map of two sources, of which one has a content. -/
def halfMap : SourceMap where
  file := none
  sourceRoot := none
  sources := [⟨"a.js", some "A"⟩, ⟨"b.js", none⟩]
  names := []
  mappings := []
  ignored := []
  debugId := none

/-- Code that ends with a comment with a map. -/
def commented : Artifacts where
  code := "a()" ++ mapComment ++ "AAAA"
  map := some halfMap
  style := ""

/-- A development build at the root of a machine. -/
def atRoot : OutputOptions where
  codePath := ⟨"/app.js"⟩
  stylePath := ⟨"/app.css"⟩
  mode := .watch
  isTypeScript := false

/-- The comment that the code ends with stays, and the map is found behind it. -/
theorem write_inlines_map_commented :
    ∃ text payload last,
      (write (Machine.host fun _ _ _ => .error .notFound) commented "B" atRoot).run.run
        ⟨⟨[], []⟩, []⟩ = (.ok (), last) ∧
      last.files.readText ⟨"/app.js"⟩ = .ok text ∧
      LastSplit mapComment text ("a()" ++ mapComment ++ "AAAA") payload ∧
      Base64.decode payload.toList = some (halfMap.embed "B" false).write.toUTF8.toList ∧
      (halfMap.embed "B" false).sources = [⟨"a.js", some "A"⟩, ⟨"b.js", some "B"⟩] := by
  rcases hrun : (write (Machine.host fun _ _ _ => .error .notFound) commented "B" atRoot).run.run
    ⟨⟨[], []⟩, []⟩ with ⟨result, last⟩
  have hends : (result, decide (last.files.locate ⟨"/app.js"⟩ = last.files.locate ⟨"/app.css"⟩)) =
      (.ok (), false) :=
    (congrArg (fun outcome => (outcome.1, decide (outcome.2.files.locate ⟨"/app.js"⟩ =
      outcome.2.files.locate ⟨"/app.css"⟩))) hrun).symm.trans (by decide +kernel)
  obtain ⟨rfl, hapart⟩ := Prod.mk.inj hends
  obtain ⟨⟨-, _, hfault⟩ | ⟨text, payload, middle, -, -, hlast, hsplit, hpayload⟩, -⟩ :=
    write_inlines_map (Machine.atomic_host _) rfl rfl hrun
  · cases hfault
  · exact ⟨text, payload, last, rfl, hlast (of_decide_eq_false hapart), hsplit, hpayload, rfl⟩

end Writing

end MiniProgram.Output
