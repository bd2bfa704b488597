import MiniProgram.Proofs.Package.SemanticVersion
import MiniProgram.Proofs.Package.Selection

/-!
# Whether the highest version is chosen

Read `resolve_precedence_iff` first. Two texts of semantic versions are compared as their precedence
demands unless a number does not fit in 64 bits or they are different pre-releases of one version.
So the chosen installation has the highest version unless a higher one is overlooked for one of
these reasons (`Overlooked`).
-/

namespace MiniProgram.Package

open SemanticVersion

/-- The order of two texts by the versions that are read off them. -/
def readOrder (a b : List Char) : Ordering :=
  if Version.beforeOption (Version.ofText? a) (Version.ofText? b) then .lt
  else if Version.beforeOption (Version.ofText? b) (Version.ofText? a) then .gt
  else .eq

/-- `Overlooked a b` says that `b` has the higher precedence, but this is lost when the two are
read. -/
def Overlooked (a b : SemanticVersion) : Prop :=
  precedence a b = .lt ∧ (¬ b.Fits ∨ SamePreview a b)

/-- Whether a precedence is lost is decided by evaluation. -/
instance (a b : SemanticVersion) : Decidable (Overlooked a b) :=
  inferInstanceAs (Decidable (precedence a b = .lt ∧ (¬ b.Fits ∨ SamePreview a b)))

section Order

variable {a b : SemanticVersion}

/-- A version whose numbers fit is read off its text. -/
theorem ofText?_of_fits (h : a.Fits) : Version.ofText? a.text = some a.kept := by
  rw [ofText?_text]
  exact if_pos h

/-- A version is read off a text exactly if its numbers fit. -/
theorem isSome_ofText?_iff : (Version.ofText? a.text).isSome = true ↔ a.Fits := by
  rw [ofText?_text]
  split
  · next h => exact iff_of_true rfl h
  · next h => exact iff_of_false (by simp) h

/-- The versions that are read off two texts are ordered by the precedence of the texts exactly when
all numbers fit, and the texts are no different pre-releases of one version. -/
theorem readOrder_eq_precedence_iff (a b : SemanticVersion) :
    (Version.ofText? a.text).isSome = true ∧ (Version.ofText? b.text).isSome = true ∧
        readOrder a.text b.text = precedence a b ↔
      a.Fits ∧ b.Fits ∧ (SamePreview a b → a.prerelease = b.prerelease) := by
  rw [isSome_ofText?_iff, isSome_ofText?_iff]
  refine and_congr_right fun ha => and_congr_right fun hb => ?_
  rw [readOrder, ofText?_of_fits ha, ofText?_of_fits hb]
  have hlower : ∀ {a b : SemanticVersion},
      Version.beforeOption (some a.kept) (some b.kept) = true ↔
        precedence a b = .lt ∧ ¬ SamePreview a b := before_iff
  by_cases hpreview : SamePreview a b
  · -- neither is read as lower, so their order is read right only if they are equal
    rw [if_neg fun h => (hlower.1 h).2 hpreview, if_neg fun h => (hlower.1 h).2 hpreview.symm,
      eq_comm, precedence_eq_iff]
    exact (and_iff_right hpreview.1).trans (imp_iff_right hpreview).symm
  · refine iff_of_true ?_ fun h => absurd h hpreview
    have hother : ¬ SamePreview b a := fun h => hpreview h.symm
    have hswap := precedence_swap a b
    cases hprecedence : precedence a b with
    | lt => exact if_pos (hlower.2 ⟨hprecedence, hpreview⟩)
    | eq =>
        rw [hprecedence] at hswap
        rw [if_neg fun h => ?_, if_neg fun h => ?_]
        · rw [hlower, ← hswap] at h
          cases h.1
        · rw [hlower, hprecedence] at h
          cases h.1
    | gt =>
        rw [hprecedence] at hswap
        rw [if_neg fun h => ?_]
        · exact if_pos (hlower.2 ⟨hswap.symm, hother⟩)
        · rw [hlower, hprecedence] at h
          cases h.1

/-- A higher version that is not overlooked has the higher rank. -/
theorem versionRank_lt_of_precedence (h : precedence a b = .lt) (hseen : ¬ Overlooked a b) :
    versionRank (Version.ofText? a.text) < versionRank (Version.ofText? b.text) := by
  obtain ⟨hb, hpreview⟩ : b.Fits ∧ ¬ SamePreview a b := by
    simpa [Overlooked, h] using hseen
  rw [ofText?_of_fits hb, ← beforeOption_iff]
  cases hread : Version.ofText? a.text with
  | none => rfl
  | some read =>
      -- what is read at all fits, so the lower version is kept with its numbers, too
      have ha : a.Fits := isSome_ofText?_iff.1 (by rw [hread]; rfl)
      obtain rfl : a.kept = read := Option.some.inj ((ofText?_of_fits ha).symm.trans hread)
      exact before_iff.2 ⟨h, hpreview⟩

end Order

section Choice

variable {tree : FileTree} {directories : List Path}

/-- `Carries tree directory version` says that the manifest in a directory is valid and has a
semantic version. -/
def Carries (tree : FileTree) (directory : Path) (version : SemanticVersion) : Prop :=
  ∃ found, Reads tree directory found ∧ found.manifest.version = String.ofList version.text

/-- What a semantic version is ordered by once it is read. -/
theorem rank_eq {found : Installation} {version : SemanticVersion}
    (h : found.manifest.version = String.ofList version.text) :
    rank found = versionRank (Version.ofText? version.text) := by
  rw [rank, Manifest.version?, h, String.toList_ofList]

/-- The best installation is one of those found. -/
theorem IsBest.mem {found : List Installation} {chosen : Installation} (h : IsBest found chosen) :
    chosen ∈ found := by
  obtain ⟨before, behind, rfl, -⟩ := h
  simp

/-- No installation has a higher rank than the best one. -/
theorem IsBest.rank_le {found : List Installation} {chosen other : Installation}
    (h : IsBest found chosen) (hother : other ∈ found) : rank other ≤ rank chosen := by
  obtain ⟨before, behind, rfl, hbefore, hbehind⟩ := h
  rcases List.mem_append.1 hother with hmem | hmem
  · exact (hbefore other hmem).le
  · rcases List.mem_cons.1 hmem with rfl | hmem
    · exact le_rfl
    · exact hbehind other hmem

/-- An installation of lower precedence has a lower rank, unless the precedence is overlooked. -/
theorem rank_lt_of_precedence {found other : Installation} {a b : SemanticVersion}
    (ha : found.manifest.version = String.ofList a.text)
    (hb : other.manifest.version = String.ofList b.text) (h : precedence a b = .lt)
    (hseen : ¬ Overlooked a b) : rank found < rank other := by
  rw [rank_eq ha, rank_eq hb]
  exact versionRank_lt_of_precedence h hseen

/-- The best installation has the highest version exactly when no higher one is overlooked. -/
theorem IsBest.highest_iff {found : List Installation} {chosen : Installation}
    {version : SemanticVersion} (h : IsBest found chosen)
    (hversion : chosen.manifest.version = String.ofList version.text) :
    (∀ installation ∈ found, ∀ other,
        installation.manifest.version = String.ofList other.text → precedence version other ≠ .lt) ↔
      ∀ installation ∈ found, ∀ other,
        installation.manifest.version = String.ofList other.text → ¬ Overlooked version other := by
  refine forall₂_congr fun installation hmem => forall₂_congr fun other hother => ?_
  constructor
  · exact fun hhighest hoverlooked => hhighest hoverlooked.1
  · intro hseen hlower
    have hlt := rank_lt_of_precedence hversion hother hlower hseen
    exact absurd (h.rank_le hmem) (not_le.2 hlt)

variable {found : List Installation}

/-- The versions that directories carry are those of the installations that are read from them. -/
theorem carries_iff {directory : Path} {installation : Installation} {version : SemanticVersion}
    (h : Reads tree directory installation) :
    Carries tree directory version ↔
      installation.manifest.version = String.ofList version.text := by
  constructor
  · rintro ⟨other, hother, hversion⟩
    rwa [reads_rightUnique h hother]
  · exact fun hversion => ⟨installation, h, hversion⟩

/-- A directory carries the version that its manifest names. -/
theorem carries_of_manifestIn {directory : Path} {version : SemanticVersion}
    (h : (manifestIn tree directory).map Manifest.version = .ok (String.ofList version.text)) :
    Carries tree directory version := by
  cases hmanifest : manifestIn tree directory with
  | error reason =>
      rw [hmanifest] at h
      cases h
  | ok manifest =>
      rw [hmanifest] at h
      exact ⟨⟨directory, manifest⟩, ⟨rfl, hmanifest⟩, Except.ok.inj h⟩

/-- What holds for all versions that directories carry holds for those of the installations read
from them. -/
theorem forall_carries_iff (h : List.Forall₂ (Reads tree) directories found)
    (P : SemanticVersion → Prop) :
    (∀ directory ∈ directories, ∀ version, Carries tree directory version → P version) ↔
      ∀ installation ∈ found, ∀ version,
        installation.manifest.version = String.ofList version.text → P version := by
  induction h with
  | nil => simp
  | cons hread _ ih =>
      rw [List.forall_mem_cons, List.forall_mem_cons, ih,
        forall_congr' fun version => imp_congr_left (carries_iff hread)]

/-- Every installation was read from one of the directories. -/
theorem exists_directory {installation : Installation}
    (h : List.Forall₂ (Reads tree) directories found) (hmem : installation ∈ found) :
    ∃ directory ∈ directories, Reads tree directory installation := by
  induction h with
  | nil => cases hmem
  | cons hread _ ih =>
      rcases List.mem_cons.1 hmem with rfl | hmem
      · exact ⟨_, .head _, hread⟩
      · obtain ⟨directory, hdirectory, hreads⟩ := ih hmem
        exact ⟨directory, .tail _ hdirectory, hreads⟩

end Choice

section Resolving

variable {tree : FileTree} {directories : List Path}

/-- Directories whose manifests are all valid hold installations, and reading them finds these. -/
theorem exists_found
    (h : ∀ directory ∈ kept tree directories, ∃ found, Reads tree directory found) :
    ∃ found, directories.mapM (examined tree) = .ok found ∧
      List.Forall₂ (Reads tree) (kept tree directories) (found.filterMap id) := by
  rcases mapM_examined_cases tree directories with ⟨directory, reason, hinvalid, -⟩ | hfound
  · obtain ⟨before, behind, hsplit, -, herror⟩ := hinvalid
    exact absurd (h directory (by rw [hsplit]; simp)) (not_reads_of_error herror)
  · exact hfound

/-- Resolving a package chooses the best one of the installations, in whatever order directories are
listed. -/
theorem exists_chosen (behaviour : Behaviour) (machine : Machine) (name : String) (root : Path)
    (htree : machine.files.Proper)
    (hcandidates : IsCandidates machine.files name root directories)
    (hsome : kept machine.files directories ≠ [])
    (hreads : ∀ directory ∈ kept machine.files directories,
      ∃ found, Reads machine.files directory found) :
    ∃ chosen, Chosen machine.files (kept machine.files directories) chosen ∧
      ∀ listed, Lists machine.files (listed machine.files) →
        (resolve (listing behaviour listed) name root).run.run machine =
          (implementation (Machine.host behaviour) chosen, machine) := by
  obtain ⟨found, hrun, hfound⟩ := exists_found hreads
  rcases best_cases (found.filterMap id) with ⟨hnil, -⟩ | ⟨chosen, hbest, hchosen⟩
  · rw [hnil] at hfound
    exact absurd (List.forall₂_nil_right_iff.1 hfound) hsome
  · refine ⟨chosen, ⟨_, hfound, hchosen⟩, fun listed hlisted => ?_⟩
    rw [run_resolve, (isCandidates_candidates hlisted name root).unique htree hcandidates, hrun]
    show (conclude (Machine.host behaviour) name root found, machine) = _
    rw [conclude, hbest]

/-- Reading compares two semantic versions by their precedence exactly when their numbers fit in 64
bits, and they are no different pre-releases of one version. If all installations of a package have
semantic versions, the chosen one has the highest of them exactly when no higher one is
overlooked. -/
theorem resolve_precedence_iff (a b : SemanticVersion) :
    ((Version.ofText? a.text).isSome = true ∧ (Version.ofText? b.text).isSome = true ∧
        readOrder a.text b.text = precedence a b ↔
      a.Fits ∧ b.Fits ∧ (SamePreview a b → a.prerelease = b.prerelease)) ∧
    ∀ (behaviour : Behaviour) (machine : Machine) (name : String) (root : Path)
      (directories : List Path), machine.files.Proper →
      IsCandidates machine.files name root directories → kept machine.files directories ≠ [] →
      (∀ directory ∈ kept machine.files directories,
        ∃ version, Carries machine.files directory version) →
      ∃ chosen version, chosen.directory ∈ kept machine.files directories ∧
        Reads machine.files chosen.directory chosen ∧
        chosen.manifest.version = String.ofList version.text ∧
        (∀ listed, Lists machine.files (listed machine.files) →
          (resolve (listing behaviour listed) name root).run.run machine =
            (implementation (Machine.host behaviour) chosen, machine)) ∧
        ((∀ directory ∈ kept machine.files directories, ∀ other,
            Carries machine.files directory other → precedence version other ≠ .lt) ↔
          ∀ directory ∈ kept machine.files directories, ∀ other,
            Carries machine.files directory other → ¬ Overlooked version other) := by
  refine ⟨readOrder_eq_precedence_iff a b, ?_⟩
  intro behaviour machine name root directories htree hcandidates hsome hversions
  have hreads : ∀ directory ∈ kept machine.files directories,
      ∃ found, Reads machine.files directory found := by
    intro directory hdirectory
    obtain ⟨version, found, hfound, -⟩ := hversions directory hdirectory
    exact ⟨found, hfound⟩
  obtain ⟨chosen, ⟨found, hfound, hbest⟩, hrun⟩ :=
    exists_chosen behaviour machine name root htree hcandidates hsome hreads
  obtain ⟨directory, hdirectory, hread⟩ := exists_directory hfound hbest.mem
  obtain rfl := hread.1
  obtain ⟨version, hcarries⟩ := hversions _ hdirectory
  have hversion := (carries_iff hread).1 hcarries
  refine ⟨chosen, version, hdirectory, hread, hversion, hrun, ?_⟩
  rw [forall_carries_iff hfound, forall_carries_iff hfound fun other => ¬ Overlooked version other]
  exact hbest.highest_iff hversion

/-- A project with two copies of a package, one of them below another package. -/
def twoCopies (version other : String) : Machine where
  files := {
    entries :=
      [([folder], .directory), ([folder, "b"], .directory), ([folder, "b", folder], .directory)] ++
      packageAt [folder, "c"] version ++ packageAt [folder, "b", folder, "c"] other
    current := [] }
  journal := []

/-- The candidates for the package, of which the last one does not exist. -/
def places : List Path := [
  ⟨"node_modules/c"⟩,
  ⟨"node_modules/b/node_modules/c"⟩,
  ⟨"node_modules/c/node_modules/c"⟩]

/-- The version 1.9.0 with a build. -/
def built : SemanticVersion :=
  ⟨1, 9, 0, [], [⟨"20".toList, by decide⟩]⟩

/-- A pre-release of the version 1.10.0. -/
def preview : SemanticVersion :=
  ⟨1, 10, 0, [.word "rc".toList (by decide), .numeric 1], []⟩

/-- Two versions with different numbers are compared by them, and the higher one is chosen. -/
theorem resolve_precedence_iff_numbers :
    readOrder built.text preview.text = precedence built preview ∧
    ∃ chosen version, chosen.manifest.version = String.ofList version.text ∧
      (resolve (Machine.host idle) "c" ⟨""⟩).run.run (twoCopies "1.9.0+20" "1.10.0-rc.1") =
        (implementation (Machine.host idle) chosen, twoCopies "1.9.0+20" "1.10.0-rc.1") ∧
      ∀ directory ∈ kept (twoCopies "1.9.0+20" "1.10.0-rc.1").files places, ∀ other,
        Carries (twoCopies "1.9.0+20" "1.10.0-rc.1").files directory other →
          precedence version other ≠ .lt := by
  have hproper : (twoCopies "1.9.0+20" "1.10.0-rc.1").files.Proper := by decide +kernel
  have hplaces : IsCandidates (twoCopies "1.9.0+20" "1.10.0-rc.1").files "c" ⟨""⟩ places :=
    ⟨places.tail, by decide, by decide +kernel, by decide +kernel⟩
  have hkept : kept (twoCopies "1.9.0+20" "1.10.0-rc.1").files places = places.take 2 := by
    decide +kernel
  have hcarries : ∀ directory ∈ kept (twoCopies "1.9.0+20" "1.10.0-rc.1").files places,
      ∃ version ∈ [built, preview],
        Carries (twoCopies "1.9.0+20" "1.10.0-rc.1").files directory version := by
    rw [hkept]
    refine List.forall_mem_cons.2 ⟨?_, List.forall_mem_singleton.2 ?_⟩
    · exact ⟨built, by simp, carries_of_manifestIn (by decide +kernel)⟩
    · exact ⟨preview, by simp, carries_of_manifestIn (by decide +kernel)⟩
  have honly : ∀ directory ∈ kept (twoCopies "1.9.0+20" "1.10.0-rc.1").files places, ∀ other,
      Carries (twoCopies "1.9.0+20" "1.10.0-rc.1").files directory other →
        other ∈ [built, preview] := by
    intro directory hdirectory other ⟨found, hread, hversion⟩
    obtain ⟨version, hmem, found', hread', hversion'⟩ := hcarries directory hdirectory
    rw [reads_rightUnique hread hread'] at hversion
    have hsame := String.ofList_injective (hversion.symm.trans hversion')
    rwa [text_injective hsame]
  obtain ⟨horder, hresolve⟩ := resolve_precedence_iff built preview
  obtain ⟨chosen, version, hdirectory, hread, hversion, hrun, hiff⟩ :=
    hresolve idle (twoCopies "1.9.0+20" "1.10.0-rc.1") "c" ⟨""⟩ places hproper
      hplaces (by rw [hkept]; decide) fun directory hdirectory =>
        (hcarries directory hdirectory).imp fun _ => And.right
  refine ⟨(horder.2 (by decide)).2.2, chosen, version, hversion,
    hrun FileTree.names fun _ => .refl _, hiff.2 ?_⟩
  intro directory hmem other hother
  have hseen : ∀ version ∈ [built, preview], ∀ other ∈ [built, preview],
      ¬ Overlooked version other := by
    decide
  exact hseen version (honly _ hdirectory version ⟨chosen, hread, hversion⟩) other
    (honly directory hmem other hother)

/-- The later one of two pre-releases of a version is found deeper, and it is overlooked. -/
theorem resolve_overlooks :
    ∃ a b : SemanticVersion, a.text = "1.0.0-alpha".toList ∧ b.text = "1.0.0-beta".toList ∧
      precedence a b = .lt ∧ readOrder a.text b.text = .eq ∧
      ((resolve (Machine.host idle) "c" ⟨""⟩).run.run
        (twoCopies "1.0.0-alpha" "1.0.0-beta")).1.map Implementation.version =
          .ok (some "1.0.0-alpha") := by
  refine ⟨⟨1, 0, 0, [.word "alpha".toList (by decide)], []⟩,
    ⟨1, 0, 0, [.word "beta".toList (by decide)], []⟩, by decide, by decide, by decide, by decide,
    ?_⟩
  have hproper : (twoCopies "1.0.0-alpha" "1.0.0-beta").files.Proper := by decide +kernel
  have hplaces : IsCandidates (twoCopies "1.0.0-alpha" "1.0.0-beta").files "c" ⟨""⟩ places :=
    ⟨places.tail, by decide, by decide +kernel, by decide +kernel⟩
  have hlisted : Lists (twoCopies "1.0.0-alpha" "1.0.0-beta").files
      (twoCopies "1.0.0-alpha" "1.0.0-beta").files.names := fun _ => .refl _
  have hchosen : ((places.mapM (examined (twoCopies "1.0.0-alpha" "1.0.0-beta").files)) >>=
      conclude (Machine.host idle) "c" ⟨""⟩).map Implementation.version =
        .ok (some "1.0.0-alpha") := by
    decide +kernel
  have hrun :=
    @run_resolve idle FileTree.names (twoCopies "1.0.0-alpha" "1.0.0-beta") "c" ⟨""⟩
  rw [(isCandidates_candidates hlisted "c" ⟨""⟩).unique hproper hplaces] at hrun
  exact (congrArg (fun run => run.1.map Implementation.version) hrun).trans hchosen

end Resolving

end MiniProgram.Package
