import MiniProgram.Proofs.Files.Stability
import MiniProgram.Proofs.Style.Processing

/-!
# Style processing part by part

Read `process_append` first: processing two lists of stylesheets one behind the other is processing
each of them, and putting the answers together. Of the assets the ones that are the same path as an
earlier one are dropped (`Path.distinct_append`), and what is left are the references that are seen
first (`mem_distinct_iff`, `FirstSeen`).
-/

namespace MiniProgram

namespace Path

variable {path other third : Path} {paths others : List Path}

/-- Paths are the same if they have the same components. -/
theorem same_iff : path.same other = true ↔ path.components = other.components := by
  rw [same, beq_iff_eq]

/-- Two paths that are the same as a third one are the same. -/
theorem same_trans (h : path.same other = true) (h' : other.same third = true) :
    path.same third = true :=
  same_iff.2 ((same_iff.1 h).trans (same_iff.1 h'))

/-- The paths that are not the same as one of some others. -/
def unlike (paths others : List Path) : List Path :=
  others.filter fun other => !paths.any fun path => path.same other

/-- Of a list behind another one only those paths count that are new. -/
theorem distinct_append (paths others : List Path) :
    distinct (paths ++ others) = distinct paths ++ unlike (distinct paths) (distinct others) := by
  induction paths with
  | nil => simp [distinct, unlike]
  | cons path paths ih =>
      rw [List.cons_append, distinct, distinct, ih, List.filter_append, List.cons_append]
      congr 2
      rw [unlike, unlike, List.filter_filter]
      refine List.filter_congr fun other _ => ?_
      -- a dropped path would exclude nothing that the one it is the same as does not exclude
      rw [Bool.eq_iff_iff]
      simp only [Bool.and_eq_true, Bool.not_eq_true', List.any_cons, Bool.or_eq_false_iff,
        List.any_eq_false, List.mem_filter, Bool.not_eq_true, and_imp]
      refine and_congr_right fun hother => ⟨fun h third hthird _ => h third hthird, ?_⟩
      intro h third hthird
      cases hsame : path.same third with
      | false => exact h third hthird hsame
      | true =>
          cases hthird' : third.same other with
          | false => rfl
          | true => rw [same_trans hsame hthird'] at hother; cases hother

/-- No two distinct paths are the same. -/
theorem pairwise_distinct (paths : List Path) :
    (distinct paths).Pairwise fun path other => path.same other = false := by
  induction paths with
  | nil => exact .nil
  | cons path paths ih =>
      rw [distinct]
      exact .cons (fun other hother => by simpa using (List.mem_filter.1 hother).2) (ih.filter _)

/-- A path is kept where it comes first. -/
theorem mem_distinct_iff : path ∈ distinct paths ↔ ∃ before after,
    paths = before ++ path :: after ∧ ∀ other ∈ before, other.same path = false := by
  induction paths with
  | nil => simp [distinct]
  | cons first paths ih =>
      simp only [distinct, List.mem_cons, List.mem_filter, ih, Bool.not_eq_true']
      constructor
      · rintro (rfl | ⟨⟨before, after, rfl, hbefore⟩, hfirst⟩)
        · exact ⟨[], paths, rfl, nofun⟩
        · exact ⟨first :: before, after, rfl, List.forall_mem_cons.2 ⟨hfirst, hbefore⟩⟩
      · rintro ⟨_ | ⟨first', before⟩, after, heq, hbefore⟩
        · exact .inl (List.cons.inj heq).1.symm
        · obtain ⟨rfl, rfl⟩ := List.cons.inj heq
          obtain ⟨hfirst, hbefore⟩ := List.forall_mem_cons.1 hbefore
          exact .inr ⟨⟨before, after, rfl, hbefore⟩, hfirst⟩

/-- Without a path above it a path is empty or the root. -/
theorem silent_of_parent?_eq_none (h : path.parent? = none) :
    ∃ rest, path.parts = [] :: rest ∧ Silent rest := by
  obtain ⟨first, rest, hparts⟩ := List.exists_cons_of_ne_nil path.parts_ne_nil
  obtain ⟨behind, hrest, hbehind, -⟩ := exists_silent_append rest.reverse
  rw [parent?, List.head?_eq_none_iff, parents_eq (by rw [hparts, List.reverse_reverse]), hrest,
    parentsOf_silent_append hbehind] at h
  cases hbefore : rest.reverse.dropWhile isSilent with
  | nil =>
      rw [hbefore, parentsOf] at h
      split at h
      · next hfirst =>
          rw [hbefore, List.append_nil] at hrest
          exact ⟨rest, hfirst ▸ hparts, fun part hpart =>
            hbehind part (hrest ▸ List.mem_reverse.2 hpart)⟩
      · cases h
  | cons name before =>
      have hname := List.head?_dropWhile_not isSilent rest.reverse
      rw [hbefore] at hname h
      rw [parentsOf, if_neg (by simpa using hname)] at h
      cases h

/-- A file that can be read has a path above it. -/
theorem exists_parent?_of_readText {tree : FileTree} {text : String}
    (h : tree.readText path = .ok text) : ∃ directory, path.parent? = some directory := by
  refine Option.ne_none_iff_exists'.1 fun hnone => ?_
  obtain ⟨rest, hparts, hsilent⟩ := silent_of_parent?_eq_none hnone
  -- the empty path names nothing, and the root is a directory
  cases rest with
  | nil =>
      have htext : path.text = "" := by
        have hempty := intercalate_parts path
        rw [hparts] at hempty
        exact String.toList_eq_nil_iff.1 hempty.symm
      have hfault : FileTree.pathFault? path = some .notFound := by
        rw [FileTree.pathFault?, htext]
        rfl
      rw [FileTree.readText, FileTree.read, FileTree.find, FileTree.locate, hfault] at h
      cases h
  | cons part rest =>
      have hstart : tree.start path = [] := by
        rw [FileTree.start, if_pos (isAbsolute_iff.2 ⟨_, hparts, List.cons_ne_nil _ _⟩)]
      have hroot : tree.follow [] path.parts = .ok [] :=
        FileTree.follow_of_silent (hparts ▸ List.forall_mem_cons.2 ⟨rfl, hsilent⟩) rfl
      rw [FileTree.readText, FileTree.read, FileTree.find, FileTree.locate, hstart, hroot] at h
      cases hfault : FileTree.pathFault? path with
      | none => rw [hfault] at h; cases h
      | some fault => rw [hfault] at h; cases h

end Path

section Splitting

variable {α β : Type}

/-- Where an element of what is put together comes from. -/
theorem exists_of_flatMap_eq {f : α → List β} {items : List α} {front behind : List β} {b : β}
    (h : items.flatMap f = front ++ b :: behind) :
    ∃ before item after own rest, items = before ++ item :: after ∧ f item = own ++ b :: rest ∧
      front = before.flatMap f ++ own := by
  induction items generalizing front with
  | nil => simp at h
  | cons first items ih =>
      rw [List.flatMap_cons] at h
      rcases List.append_eq_append_iff.1 h with ⟨more, rfl, hrest⟩ | ⟨more, hfirst, hrest⟩
      · obtain ⟨before, item, after, own, rest, rfl, hitem, rfl⟩ := ih hrest
        exact ⟨first :: before, item, after, own, rest, rfl, hitem, by simp⟩
      · cases more with
        | nil =>
            have hlater : items.flatMap f = [] ++ b :: behind := hrest.symm
            obtain ⟨before, item, after, own, rest, rfl, hitem, hnil⟩ := ih hlater
            refine ⟨first :: before, item, after, own, rest, rfl, hitem, ?_⟩
            rw [List.flatMap_cons, List.append_assoc, ← hnil, hfirst]
            simp
        | cons b' more =>
            obtain ⟨rfl, -⟩ := List.cons.inj hrest
            exact ⟨[], first, items, front, more, rfl, hfirst, rfl⟩

end Splitting

namespace Style

variable {σ : Type} {files : σ → FileTree} {host : Host (StateM σ)} {tree : FileTree}
  {entry base : Path} {sheets more : List Sheet} {paths : List Path} {output : StyleOutput}
  {fault : StyleFault}

/-- `FirstUnreadable tree base paths fault` says that the fault is that of the first stylesheet that
cannot be read. -/
def FirstUnreadable (tree : FileTree) (base : Path) (paths : List Path) (fault : StyleFault) :
    Prop :=
  ∃ before file after cause, paths = before ++ file :: after ∧
    (∀ earlier ∈ before, ∃ text, tree.readText (base.join earlier) = .ok text) ∧
    tree.readText (base.join file) = .error cause ∧ fault = ⟨base.join file, cause.message⟩

/-- `FirstSeen sheets asset` says that a stylesheet refers to an asset, as seen from the directory
of the stylesheet, and that no reference in front of it is the same path. -/
inductive FirstSeen (sheets : List Sheet) (asset : Path) : Prop where
  | intro (before after : List Sheet) (sheet : Sheet) (directory : Path)
      (front behind : List (List Char)) (url : List Char)
      (sheets_eq : sheets = before ++ sheet :: after)
      (parent? : sheet.path.parent? = some directory)
      (urls_eq : localUrls sheet.text.toList = front ++ url :: behind)
      (asset_eq : asset = directory / String.ofList url)
      (earlier_sheets : ∀ earlier ∈ before, ∀ above ∈ earlier.path.parent?,
        ∀ other ∈ localUrls earlier.text.toList,
          (above / String.ofList other).same asset = false)
      (earlier_urls : ∀ other ∈ front, (directory / String.ofList other).same asset = false)

section Processed

/-- Reading a stylesheet fails as reading its file does. -/
theorem sheetIn_eq_error_iff {file : Path} :
    sheetIn tree base file = .error fault ↔ ∃ cause, tree.readText (base.join file) = .error cause ∧
      fault = ⟨base.join file, cause.message⟩ := by
  rw [sheetIn]
  cases tree.readText (base.join file) with
  | error cause => simp [sheetOf, eq_comm]
  | ok text => simp [sheetOf]

/-- A stylesheet is read exactly if its file can be read. -/
theorem exists_sheetIn_iff {file : Path} :
    (∃ sheet, sheetIn tree base file = .ok sheet) ↔
      ∃ text, tree.readText (base.join file) = .ok text := by
  simp only [sheetIn_eq_ok_iff, Reads]
  constructor
  · rintro ⟨sheet, -, hread⟩
    exact ⟨sheet.text, hread⟩
  · rintro ⟨text, hread⟩
    exact ⟨⟨base.join file, text⟩, rfl, hread⟩

/-- Processing fails as the first stylesheet does that cannot be read. -/
theorem processed_eq_error_iff :
    processed tree paths entry = .error fault ↔
      FirstUnreadable tree (baseIn tree entry) paths fault := by
  have hmap : processed tree paths entry = .error fault ↔
      paths.mapM (sheetIn tree (baseIn tree entry)) = .error fault := by
    simp [processed, except_bind_eq_error_iff, pure, Except.pure]
  rw [hmap, mapM_eq_error_iff]
  simp only [sheetIn_eq_error_iff, exists_sheetIn_iff]
  constructor
  · rintro ⟨before, file, after, hpaths, hbefore, cause, hcause, hfault⟩
    exact ⟨before, file, after, cause, hpaths, hbefore, hcause, hfault⟩
  · rintro ⟨before, file, after, cause, hpaths, hbefore, hcause, hfault⟩
    exact ⟨before, file, after, hpaths, hbefore, cause, hcause, hfault⟩

/-- All stylesheets are read exactly if reading them one after the other succeeds. -/
theorem readsAll_iff :
    ReadsAll tree entry paths sheets ↔
      paths.mapM (sheetIn tree (baseIn tree entry)) = .ok sheets := by
  simp only [mapM_eq_ok_iff, sheetIn_eq_ok_iff]
  rfl

/-- The stylesheets of two lists of files are those of the first list in front of those of the
second. -/
theorem readsAll_append_iff {others : List Path} :
    ReadsAll tree entry (paths ++ others) sheets ↔
      ∃ first second, ReadsAll tree entry paths first ∧ ReadsAll tree entry others second ∧
        sheets = first ++ second := by
  simp only [readsAll_iff, List.mapM_append, except_bind_eq_ok_iff]
  constructor
  · rintro ⟨first, hfirst, second, hsecond, hsheets⟩
    exact ⟨first, second, hfirst, hsecond, (Except.ok.inj hsheets).symm⟩
  · rintro ⟨first, second, hfirst, hsecond, rfl⟩
    exact ⟨first, hfirst, second, hsecond, rfl⟩

/-- Some file gives some stylesheet. -/
theorem ReadsAll.ne_nil (h : ReadsAll tree entry paths sheets) (hne : paths ≠ []) :
    sheets ≠ [] := by
  rintro rfl
  exact hne (List.forall₂_nil_right_iff.1 h)

/-- Each of the stylesheets was read from some file. -/
theorem ReadsAll.exists_reads (h : ReadsAll tree entry paths sheets) :
    ∀ sheet ∈ sheets, ∃ file, Reads tree (baseIn tree entry) file sheet := by
  induction h with
  | nil => nofun
  | cons hfirst _ ih => exact List.forall_mem_cons.2 ⟨⟨_, hfirst⟩, ih⟩

/-- What a stylesheet that was read refers to is seen from the directory above it. -/
theorem assets_eq_of_reads {file : Path} {sheet : Sheet} (h : Reads tree base file sheet) :
    ∃ directory, sheet.path.parent? = some directory ∧
      sheet.assets base = (localUrls sheet.text.toList).map fun url =>
        directory / String.ofList url := by
  obtain ⟨hpath, hread⟩ := h
  rw [← hpath] at hread
  obtain ⟨directory, hdirectory⟩ := Path.exists_parent?_of_readText hread
  refine ⟨directory, hdirectory, ?_⟩
  rw [Sheet.assets, Sheet.directory, hdirectory, Option.getD_some]

/-- Joined as one list, stylesheets stand one below the other, and only new files are added to the
assets. -/
theorem join_append (base : Path) (hsheets : sheets ≠ []) (hmore : more ≠ []) :
    join base (sheets ++ more) =
      ⟨(join base sheets).style ++ "\n" ++ (join base more).style,
        (join base sheets).assets ++
          Path.unlike (join base sheets).assets (join base more).assets⟩ := by
  rw [join, join, join, List.map_append, List.flatMap_append, Path.distinct_append,
    String.intercalate_append_of_ne_nil (by simpa using hsheets) (by simpa using hmore)]

/-- The assets of stylesheets are the references that are seen first. -/
theorem mem_assets_iff (h : ∀ sheet ∈ sheets, ∃ file, Reads tree base file sheet) {asset : Path} :
    asset ∈ (join base sheets).assets ↔ FirstSeen sheets asset := by
  rw [join, Path.mem_distinct_iff]
  constructor
  · rintro ⟨front, behind, hall, hfront⟩
    obtain ⟨before, sheet, after, own, rest, rfl, hsheet, rfl⟩ := exists_of_flatMap_eq hall
    obtain ⟨file, hreads⟩ := h sheet (by simp)
    obtain ⟨directory, hparent, hassets⟩ := assets_eq_of_reads hreads
    rw [hassets] at hsheet
    obtain ⟨urls, more, hurls, rfl, hmore⟩ := List.map_eq_append_iff.1 hsheet
    obtain ⟨url, others, rfl, rfl, -⟩ := List.map_eq_cons_iff.1 hmore
    refine .intro before after sheet directory urls others url rfl hparent hurls rfl ?_ ?_
    · intro earlier hearlier above habove other hother
      obtain ⟨file', hreads'⟩ := h earlier (by simp [hearlier])
      obtain ⟨directory', hparent', hassets'⟩ := assets_eq_of_reads hreads'
      obtain rfl : directory' = above := Option.some.inj (hparent'.symm.trans habove)
      refine hfront _ (List.mem_append_left _ (List.mem_flatMap.2 ⟨earlier, hearlier, ?_⟩))
      rw [hassets']
      exact List.mem_map_of_mem hother
    · exact fun other hother => hfront _ (List.mem_append_right _ (List.mem_map_of_mem hother))
  · rintro ⟨before, after, sheet, directory, front, behind, url, rfl, hparent, hurls, rfl,
      hbefore, hfront⟩
    obtain ⟨file, hreads⟩ := h sheet (by simp)
    obtain ⟨directory', hparent', hassets⟩ := assets_eq_of_reads hreads
    obtain rfl : directory' = directory := Option.some.inj (hparent'.symm.trans hparent)
    refine ⟨before.flatMap (·.assets base) ++ front.map fun other =>
      directory' / String.ofList other, (behind.map fun other =>
        directory' / String.ofList other) ++ after.flatMap (·.assets base), ?_, ?_⟩
    · rw [List.flatMap_append, List.flatMap_cons, hassets, hurls]
      simp
    · intro other hother
      rcases List.mem_append.1 hother with hother | hother
      · obtain ⟨earlier, hearlier, hother⟩ := List.mem_flatMap.1 hother
        obtain ⟨file', hreads'⟩ := h earlier (by simp [hearlier])
        obtain ⟨above, habove, hassets'⟩ := assets_eq_of_reads hreads'
        rw [hassets'] at hother
        obtain ⟨url', hurl', rfl⟩ := List.mem_map.1 hother
        exact hbefore earlier hearlier above habove url' hurl'
      · obtain ⟨url', hurl', rfl⟩ := List.mem_map.1 hother
        exact hfront url' hurl'

end Processed

section Answers

variable {state : σ}

/-- What processing stylesheets answers on a host in some state. -/
def answered (host : Host (StateM σ)) (state : σ) (entry : Path) (paths : List Path) :
    Except StyleFault StyleOutput :=
  ((process host paths entry).run.run state).1

/-- What processing answers is what the files of the state make up. -/
theorem answered_eq (hhost : host.Faithful files) :
    answered host state entry paths = processed (files state) paths entry :=
  (asks_process hhost paths entry state).1

/-- Processing two lists of files succeeds exactly if each list does, and appends the second answer
to the first. -/
theorem answered_append_eq_ok_iff {others : List Path} (hhost : host.Faithful files)
    (hpaths : paths ≠ []) (hothers : others ≠ []) :
    answered host state entry (paths ++ others) = .ok output ↔
      ∃ first second, answered host state entry paths = .ok first ∧
        answered host state entry others = .ok second ∧
        output = ⟨first.style ++ "\n" ++ second.style,
          first.assets ++ Path.unlike first.assets second.assets⟩ := by
  simp only [answered_eq hhost, processed_eq_ok_iff, readsAll_append_iff]
  constructor
  · rintro ⟨_, ⟨first, second, hfirst, hsecond, rfl⟩, rfl⟩
    exact ⟨_, _, ⟨first, hfirst, rfl⟩, ⟨second, hsecond, rfl⟩,
      join_append _ (hfirst.ne_nil hpaths) (hsecond.ne_nil hothers)⟩
  · rintro ⟨_, _, ⟨first, hfirst, rfl⟩, ⟨second, hsecond, rfl⟩, rfl⟩
    exact ⟨_, ⟨first, second, hfirst, hsecond, rfl⟩,
      (join_append _ (hfirst.ne_nil hpaths) (hsecond.ne_nil hothers)).symm⟩

/-- Processing two lists of stylesheets one behind the other fails as processing one of them does,
with the fault of the first stylesheet that cannot be read. Else the styles are joined by a line
feed, and the first assets are followed by those of the second ones that are the same path as none
of them. Assets are the references that are seen first, each from the directory of its stylesheet,
and no two of them are the same path. -/
theorem process_append (hhost : host.Faithful files) (state : σ) (entry : Path)
    {paths others : List Path} (hpaths : paths ≠ []) (hothers : others ≠ []) :
    ((∃ fault, answered host state entry (paths ++ others) = .error fault) ↔
      (∃ fault, answered host state entry paths = .error fault) ∨
        ∃ fault, answered host state entry others = .error fault) ∧
    (∀ list fault, answered host state entry list = .error fault ↔
      FirstUnreadable (files state) (baseIn (files state) entry) list fault) ∧
    (∀ output, answered host state entry (paths ++ others) = .ok output ↔
      ∃ first second, answered host state entry paths = .ok first ∧
        answered host state entry others = .ok second ∧
        output = ⟨first.style ++ "\n" ++ second.style,
          first.assets ++ Path.unlike first.assets second.assets⟩) ∧
    ∀ list output, answered host state entry list = .ok output →
      (output.assets.Pairwise fun asset later => asset.same later = false) ∧
      ∃ sheets, ReadsAll (files state) entry list sheets ∧
        ∀ asset, asset ∈ output.assets ↔ FirstSeen sheets asset := by
  refine ⟨?_, fun list fault => ?_, fun output => ?_, fun list output h => ?_⟩
  · simp only [exists_eq_error_iff, answered_append_eq_ok_iff hhost hpaths hothers]
    rw [← not_and_or]
    refine not_congr ⟨?_, ?_⟩
    · rintro ⟨_, first, second, hfirst, hsecond, -⟩
      exact ⟨⟨first, hfirst⟩, second, hsecond⟩
    · rintro ⟨⟨first, hfirst⟩, second, hsecond⟩
      exact ⟨_, first, second, hfirst, hsecond, rfl⟩
  · rw [answered_eq hhost, processed_eq_error_iff]
  · exact answered_append_eq_ok_iff hhost hpaths hothers
  · rw [answered_eq hhost, processed_eq_ok_iff] at h
    obtain ⟨sheets, hsheets, rfl⟩ := h
    exact ⟨Path.pairwise_distinct _, sheets, hsheets, fun _ =>
      mem_assets_iff hsheets.exists_reads⟩

/-- A machine with two stylesheets in a directory, which refer to one file in two ways. -/
def styled : Machine where
  files := {
    entries := [
      (["s"], .directory),
      (["s", "a.css"], .file "a url(x.png)".toUTF8 false),
      (["s", "b.css"], .file "b url(./x.png) url(y.png)".toUTF8 false)]
    current := [] }
  journal := []

/-- The file that both stylesheets refer to is listed as the first one spells it. -/
theorem process_append_spelled :
    answered (Machine.host fun _ _ _ => .error .notFound) styled ⟨"app"⟩
      ([⟨"s/a.css"⟩] ++ [⟨"s//b.css"⟩]) =
        .ok ⟨"a url(x.png)\nb url(./x.png) url(y.png)",
          [⟨"s/x.png"⟩, ⟨"s/y.png"⟩]⟩ := by
  have hfirst : answered (Machine.host fun _ _ _ => .error .notFound) styled ⟨"app"⟩
      [⟨"s/a.css"⟩] = .ok ⟨"a url(x.png)", [⟨"s/x.png"⟩]⟩ := by decide +kernel
  have hsecond : answered (Machine.host fun _ _ _ => .error .notFound) styled ⟨"app"⟩
      [⟨"s//b.css"⟩] = .ok ⟨"b url(./x.png) url(y.png)",
        [⟨"s/./x.png"⟩, ⟨"s/y.png"⟩]⟩ := by decide +kernel
  obtain ⟨-, -, hok, -⟩ := process_append (Machine.faithful_host fun _ _ _ => .error .notFound)
    styled ⟨"app"⟩ (List.cons_ne_nil ⟨"s/a.css"⟩ []) (List.cons_ne_nil ⟨"s//b.css"⟩ [])
  exact (hok _).2 ⟨_, _, hfirst, hsecond, by decide +kernel⟩

end Answers

end Style

end MiniProgram
