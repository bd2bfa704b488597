import MiniProgram.Proofs.Files.Beside
import MiniProgram.Proofs.Loader.Artifacts
import MiniProgram.Proofs.Loader.Effect

/-!
# Runs on trees side by side

On two trees that differ in a folder, and in directories on the way to it, a run that keeps away
from the folder does the same (`runIn_beside`): both trees stay side by side, and the answers are
alike. A run itself changes its output directory and what is on the way there (`beside_runIn`).
-/

namespace MiniProgram

open FileTree

variable {made : Location → Prop} {folder : Location} {tree other next : FileTree}

namespace Output

variable {base path : Path} {word text : String} {location : Location}

/-- The directory of a file is made as any directory is. -/
theorem parentIn_eq (path : Path) (tree : FileTree) :
    parentIn path tree = tree.createDirectories (path.parent?.getD ⟨""⟩) := by
  unfold parentIn
  cases path.parent? with
  | some parent => rfl
  | none => exact (createDirectories_of_has (.inl rfl)).symm

/-- The directory of a file leads where the base of its path leads. -/
theorem placeOf_parent (tree : FileTree) (hword : Path.isFileName word = true)
    (hplain : base.Plain) :
    ((base / word).parent?.getD ⟨""⟩).text = "" ∨
      ((base / word).parent?.getD ⟨""⟩).Plain ∧
        tree.placeOf ((base / word).parent?.getD ⟨""⟩) = tree.placeOf base := by
  rcases Path.parent_cases base hword with
    ⟨hempty, -⟩ | ⟨parent, heq, -, habove, habsolute, hwords, -⟩
  · exact .inl hempty
  · rw [heq, placeOf, placeOf, start, start, habsolute, hwords]
    exact .inr ⟨habove.plain (hplain.div hword), rfl⟩

/-- Making the directory of a file changes no more than its way there. -/
theorem beside_parentIn (hword : Path.isFileName word = true) (hplain : base.Plain)
    (hrooted : tree.Rooted) :
    Beside (fun _ => True) (tree.placeOf base) tree (parentIn (base / word) tree).2 := by
  rw [parentIn_eq]
  rcases placeOf_parent tree hword hplain with hempty | ⟨hparent, hplace⟩
  · rw [createDirectories_of_has (.inl hempty)]
    exact .refl _ _ _
  · rw [← hplace]
    exact beside_createDirectories hrooted hparent

/-- Making the directory of a file is answered the same in trees that differ elsewhere, and they
still differ only there. -/
theorem parentIn_beside (hword : Path.isFileName word = true) (hplain : base.Plain)
    (hrooted : tree.Rooted) (hother : other.Rooted) (hbeside : Beside made folder tree other)
    (hapart : Apart folder (tree.placeOf base)) :
    (parentIn (base / word) other).1 = (parentIn (base / word) tree).1 ∧
      Beside made folder (parentIn (base / word) tree).2 (parentIn (base / word) other).2 := by
  rw [parentIn_eq, parentIn_eq]
  rcases placeOf_parent tree hword hplain with hempty | ⟨hparent, hplace⟩
  · rw [createDirectories_of_has (.inl hempty), createDirectories_of_has (.inl hempty)]
    exact ⟨rfl, hbeside⟩
  · rw [← hplace] at hapart
    exact createDirectories_beside hrooted hother hbeside hparent hapart

/-- Once the directory of a file has been made, the base of its path can be entered. -/
theorem enter_of_parentIn (hword : Path.isFileName word = true) (hplain : base.Plain)
    (hrooted : tree.Rooted) (hvalid : pathFault? (base / word) = none)
    (h : parentIn (base / word) tree = (.ok (), next)) :
    next.enter (next.start base) (Path.words base.parts).reverse = .ok (tree.placeOf base) := by
  have hsame := (beside_parentIn hword hplain hrooted).start_eq base
  rw [h] at hsame
  rw [hsame]
  rw [parentIn_eq] at h
  have hstart := hrooted.start base
  rcases Path.parent_cases base hword with ⟨hempty, hnone⟩ |
    ⟨parent, heq, hne, habove, habsolute, hwords, hend⟩
  · rw [createDirectories_of_has (.inl hempty)] at h
    obtain ⟨-, rfl⟩ := Prod.mk.inj h
    rw [hnone, placeOf, hnone, List.append_nil]
    exact checked_eq_ok_iff.2 ⟨rfl, hstart⟩
  · have hparent : tree.start parent = tree.start base := by
      rw [start, start, habsolute]
    rw [heq, createDirectories_of_plain hrooted (pathFault?_of_above habove hne hvalid)
      (habove.plain (hplain.div hword)), hparent, hwords] at h
    have hentered := enter_of_makeNames hstart h
    rwa [List.reverse_reverse] at hentered

/-- In a directory that can be entered, a file name is a place for a file. -/
theorem target_div (hword : Path.isFileName word = true) (hplain : base.Plain)
    (hvalid : pathFault? (base / word) = none)
    (h : tree.enter (tree.start base) (Path.words base.parts).reverse = .ok location) :
    tree.target (base / word) =
      if nameLimit < word.utf8ByteSize then .error .nameTooLong
      else .ok (.named (location ++ [word]) (base / word).hasTrailingSeparator) := by
  have hsilent := Path.isSilent_of_isFileName hword
  have hend :
      (base / word).parts.reverse.dropWhile (· = []) = word.toList :: base.stem.reverse := by
    rw [Path.parts_div base hword, List.reverse_append, List.reverse_singleton,
      List.singleton_append, List.dropWhile_cons_of_neg]
    intro hnil
    simp [Path.isSilent, of_decide_eq_true hnil] at hsilent
  have hdot : word.toList ≠ ['.'] := by
    intro heq
    simp [Path.isSilent, heq] at hsilent
  rw [target_of_plain hvalid (hplain.div hword) hend, List.reverse_reverse, Path.words_stem,
    start_div tree base hword,
    h]
  simp only [hdot, if_false, String.ofList_toList]

/-- Making the directory of a file keeps a tree rooted. -/
theorem rooted_parentIn (h : tree.Rooted) (path : Path) : (parentIn path tree).2.Rooted := by
  rw [parentIn_eq]
  exact h.createDirectories _

/-- Writing a file keeps a tree rooted. -/
theorem rooted_fileIn (h : tree.Rooted) (path : Path) (text : String) :
    (fileIn path text tree).2.Rooted := by
  have hparent := rooted_parentIn h path
  unfold fileIn
  rcases hmade : parentIn path tree with ⟨fault | _, left⟩ <;> rw [hmade] at hparent
  · exact hparent
  · cases hwrite : left.write path text.toUTF8 with
    | error fault => simpa only [hwrite] using hparent
    | ok last => simpa only [hwrite] using hparent.write hwrite

/-- Leaving a file changes its directory, and what is on the way there. -/
theorem beside_fileIn (text : String) (hword : Path.isFileName word = true) (hplain : base.Plain)
    (hrooted : tree.Rooted) :
    Beside (fun _ => True) (tree.placeOf base) tree (fileIn (base / word) text tree).2 := by
  have hparent := beside_parentIn hword hplain hrooted
  unfold fileIn
  rcases hmade : parentIn (base / word) tree with ⟨fault | _, left⟩ <;> rw [hmade] at hparent
  · exact hparent
  · cases hwrite : left.write (base / word) text.toUTF8 with
    | error fault => simpa only [hwrite] using hparent
    | ok last =>
        simp only [hwrite]
        obtain ⟨location, htarget, -, rfl⟩ := write_eq_ok_iff.1 hwrite
        obtain ⟨place, hfollow, rfl⟩ := exists_of_target_div hword htarget
        have hstem : ['.', '.'] ∉ base.stem := fun hmem =>
          hplain.div hword (Path.parts_div base hword ▸ List.mem_append_left _ hmem)
        have hplace : place = tree.placeOf base := by
          rw [← hparent.placeOf_eq base]
          exact (eq_of_follow_plain hstem hfollow).trans (by rw [Path.words_stem]; rfl)
        rw [hplace]
        exact hparent.trans (beside_put (List.prefix_append _ _) (by simp) _)

/-- A file that has the same place in both trees, apart from the folder, is written alike. -/
theorem write_beside (content : ByteArray) (hbeside : Beside made folder tree other)
    (htarget : other.target path = tree.target path)
    (hapart : ∀ location trailing, tree.target path = .ok (.named location trailing) →
      Apart folder location) :
    (∃ fault, tree.write path content = .error fault ∧ other.write path content = .error fault) ∨
      ∃ left right, tree.write path content = .ok left ∧ other.write path content = .ok right ∧
        Beside made folder left right := by
  unfold FileTree.write
  rw [htarget]
  cases hplace : tree.target path with
  | error fault => exact .inl ⟨fault, rfl, rfl⟩
  | ok found =>
      cases found with
      | unnamed => exact .inl ⟨_, rfl, rfl⟩
      | named location trailing =>
          have hne := ne_nil_of_target hplace
          dsimp only
          rw [hbeside.get?_eq (hapart _ _ hplace)]
          cases trailing with
          | true => exact .inl ⟨_, rfl, rfl⟩
          | false =>
              cases tree.get? location with
              | none => exact .inr ⟨_, _, rfl, rfl, hbeside.put hne _⟩
              | some entry =>
                  cases entry with
                  | directory => exact .inl ⟨_, rfl, rfl⟩
                  | file old executable => exact .inr ⟨_, _, rfl, rfl, hbeside.put hne _⟩

/-- A file of a directory that is apart from the folder is left alike in both trees. -/
theorem fileIn_beside (text : String) (hword : Path.isFileName word = true) (hplain : base.Plain)
    (hrooted : tree.Rooted) (hother : other.Rooted) (hbeside : Beside made folder tree other)
    (hapart : Apart folder (tree.placeOf base)) :
    (fileIn (base / word) text other).1 = (fileIn (base / word) text tree).1 ∧
      Beside made folder (fileIn (base / word) text tree).2
        (fileIn (base / word) text other).2 := by
  obtain ⟨hanswer, hleft⟩ := parentIn_beside hword hplain hrooted hother hbeside hapart
  unfold fileIn
  rcases hmade : parentIn (base / word) tree with ⟨answer, left⟩
  rcases hmade' : parentIn (base / word) other with ⟨answer', right⟩
  rw [hmade, hmade'] at hanswer hleft
  obtain rfl : answer' = answer := hanswer
  cases answer' with
  | error fault => exact ⟨rfl, hleft⟩
  | ok _ =>
      have htarget : right.target (base / word) = left.target (base / word) ∧
          ∀ location trailing, left.target (base / word) = .ok (.named location trailing) →
            Apart folder location := by
        cases hvalid : pathFault? (base / word) with
        | some fault => simp [target, hvalid]
        | none =>
            have henter := enter_of_parentIn hword hplain hrooted hvalid hmade
            have henter' := enter_of_parentIn hword hplain hother hvalid hmade'
            rw [hbeside.placeOf_eq] at henter'
            rw [target_div hword hplain hvalid henter, target_div hword hplain hvalid henter']
            refine ⟨rfl, fun location trailing h => ?_⟩
            split at h
            · cases h
            · cases h
              exact hapart.append [word]
      rcases write_beside text.toUTF8 hleft htarget.1 htarget.2
        with ⟨fault, hwrite, hwrite'⟩ | ⟨last, last', hwrite, hwrite', hlast⟩
      · simp only [hwrite, hwrite']
        exact ⟨trivial, hleft⟩
      · simp only [hwrite, hwrite']
        exact ⟨trivial, hlast⟩

variable {first second : String}

/-- The output is left alike in both trees if its directory is apart from the folder. -/
theorem outputIn_beside (options : OutputOptions) (code style : String)
    (hfirst : Path.isFileName first = true)
    (hsecond : Path.isFileName second = true) (hcodePath : options.codePath = base / first)
    (hstylePath : options.stylePath = base / second) (hplain : base.Plain)
    (hrooted : tree.Rooted) (hother : other.Rooted) (hbeside : Beside made folder tree other)
    (hapart : Apart folder (tree.placeOf base)) :
    (outputIn options code style other).1 = (outputIn options code style tree).1 ∧
      Beside made folder (outputIn options code style tree).2
        (outputIn options code style other).2 := by
  obtain ⟨hanswer, hleft⟩ :=
    fileIn_beside code hfirst hplain hrooted hother hbeside hapart
  unfold outputIn
  rw [hcodePath, hstylePath]
  rcases hcode : fileIn (base / first) code tree with ⟨answer, left⟩
  rcases hcode' : fileIn (base / first) code other with ⟨answer', right⟩
  rw [hcode, hcode'] at hanswer hleft
  obtain rfl : answer' = answer := hanswer
  cases answer' with
  | error fault => exact ⟨rfl, hleft⟩
  | ok _ =>
      have hrooted' := rooted_fileIn hrooted (base / first) code
      have hother' := rooted_fileIn hother (base / first) code
      have hplace := (beside_fileIn code hfirst hplain hrooted).placeOf_eq base
      rw [hcode] at hrooted' hplace
      rw [hcode'] at hother'
      exact fileIn_beside style hsecond hplain hrooted' hother' hleft (hplace ▸ hapart)

/-- Writing the output changes the output directory and what is on the way there. -/
theorem beside_outputIn (options : OutputOptions) (code style : String)
    (hfirst : Path.isFileName first = true)
    (hsecond : Path.isFileName second = true) (hcodePath : options.codePath = base / first)
    (hstylePath : options.stylePath = base / second) (hplain : base.Plain)
    (hrooted : tree.Rooted) :
    Beside (fun _ => True) (tree.placeOf base) tree (outputIn options code style tree).2 := by
  have hleft := beside_fileIn code hfirst hplain hrooted
  have hrooted' := rooted_fileIn hrooted (base / first) code
  unfold outputIn
  rw [hcodePath, hstylePath]
  rcases hcode : fileIn (base / first) code tree with ⟨fault | _, left⟩ <;>
    rw [hcode] at hleft hrooted'
  · exact hleft
  · have hright := beside_fileIn style hsecond hplain hrooted'
    rw [hleft.placeOf_eq] at hright
    exact hleft.trans hright

/-- Writing the output keeps a tree rooted. -/
theorem rooted_outputIn (h : tree.Rooted) (options : OutputOptions) (code style : String) :
    (outputIn options code style tree).2.Rooted := by
  have hleft := rooted_fileIn h options.codePath code
  unfold outputIn
  rcases hcode : fileIn options.codePath code tree with ⟨fault | _, left⟩ <;> rw [hcode] at hleft
  · exact hleft
  · exact rooted_fileIn hleft _ _

end Output

namespace Style

variable {sheets : List Path} {entry : Path}

/-- Two reasons why a stylesheet with too long a name cannot be read: it is not there, or its name
is too long. -/
def Missing (fault fault' : StyleFault) : Prop :=
  ∃ path, HasLongName path ∧ fault = ⟨path, FileFault.notFound.message⟩ ∧
    fault' = ⟨path, FileFault.nameTooLong.message⟩

/-- Stylesheets that are apart from the folder make up the same in both trees, but for the reason
why one of them cannot be read. -/
theorem processed_beside (hrooted : tree.Rooted) (hbeside : Beside made folder tree other)
    (hentry : entry.Plain ∧ Apart folder (tree.placeOf entry))
    (hsheets : ∀ file ∈ sheets, ((baseIn tree entry).join file).Plain ∧
      Apart folder (tree.placeOf ((baseIn tree entry).join file))) :
    processed other sheets entry = processed tree sheets entry ∨
      ∃ fault fault', Missing fault fault' ∧ processed tree sheets entry = .error fault ∧
        processed other sheets entry = .error fault' := by
  have hbase : baseIn other entry = baseIn tree entry := by
    rw [baseIn, baseIn, isDirectory_beside hrooted hbeside hentry.1 hentry.2]
  have heach : ∀ file ∈ sheets,
      sheetIn other (baseIn tree entry) file = sheetIn tree (baseIn tree entry) file ∨
        ∃ fault fault', Missing fault fault' ∧
          sheetIn tree (baseIn tree entry) file = .error fault ∧
          sheetIn other (baseIn tree entry) file = .error fault' := by
    intro file hfile
    obtain ⟨hplain, hapart⟩ := hsheets file hfile
    unfold sheetIn
    rcases readText_beside hrooted hbeside hplain hapart with hsame | ⟨hmissing, hlong, hname⟩
    · exact .inl (by rw [hsame])
    · rw [hmissing, hlong]
      exact .inr ⟨_, _, ⟨_, hname, rfl, rfl⟩, rfl, rfl⟩
  unfold processed
  rw [hbase]
  rcases mapM_congr_or heach with hsame | ⟨fault, fault', hmissing, hleft, hright⟩
  · exact .inl (by rw [hsame])
  · exact .inr ⟨fault, fault', hmissing, by rw [hleft]; rfl, by rw [hright]; rfl⟩

end Style

namespace Loader

variable {context : LoaderContext}

/-- Results of runs that are the same, but for the reason why a stylesheet with too long a name
cannot be read. -/
def Alike (result result' : Except LoaderFault String) : Prop :=
  result' = result ∨ ∃ fault fault', Style.Missing fault fault' ∧
    result = .error (.style fault) ∧ result' = .error (.style fault')

/-- A run that succeeds is only like one with the same result. -/
theorem Alike.eq_of_ok {text : String} {result : Except LoaderFault String}
    (h : Alike (.ok text) result) : result = .ok text := by
  rcases h with hsame | ⟨_, _, _, hfault, -⟩
  · exact hsame
  · cases hfault

/-- A run keeps a tree rooted. -/
theorem rooted_runIn (h : tree.Rooted) (context : LoaderContext) (raw : String)
    (answer : Except LoaderFault Compilation) : (runIn context raw answer tree).2.Rooted := by
  have hfolder := h.createDirectories context.options.outputPath
  unfold runIn
  rw [folderIn_eq]
  rcases hmade : tree.createDirectories context.options.outputPath with ⟨fault | _, left⟩ <;>
    rw [hmade] at hfolder
  · exact hfolder
  cases answer with
  | error fault => exact hfolder
  | ok compilation =>
      cases hstyle : Style.processed left compilation.styleFiles context.entry with
      | error fault => simpa only [Except.mapError, hstyle] using hfolder
      | ok style =>
          have houtput := Output.rooted_outputIn hfolder (outputOptions context)
            (Output.codeText (artifacts compilation style) raw (outputOptions context))
            (Output.styleText (artifacts compilation style) (outputOptions context))
          simpa only [Except.mapError, hstyle, finishIn_eq] using houtput

/-- A run changes its output directory and what is on the way there. -/
theorem beside_runIn (raw : String) (answer : Except LoaderFault Compilation)
    (hrooted : tree.Rooted) (hplain : context.options.outputPath.Plain)
    (hext : '/' ∉ context.options.platform.cssExtension.toList) :
    Beside (fun _ => True) (tree.placeOf context.options.outputPath) tree
      (runIn context raw answer tree).2 := by
  have hfolder := beside_createDirectories hrooted hplain
  have hrooted' := hrooted.createDirectories context.options.outputPath
  unfold runIn
  rw [folderIn_eq]
  rcases hmade : tree.createDirectories context.options.outputPath with ⟨fault | _, left⟩ <;>
    rw [hmade] at hfolder hrooted'
  · exact hfolder
  cases answer with
  | error fault => exact hfolder
  | ok compilation =>
      cases hstyle : Style.processed left compilation.styleFiles context.entry with
      | error fault => simpa only [Except.mapError, hstyle] using hfolder
      | ok style =>
          have houtput := Output.beside_outputIn (outputOptions context)
            (Output.codeText (artifacts compilation style) raw (outputOptions context))
            (Output.styleText (artifacts compilation style) (outputOptions context))
            (by decide : Path.isFileName (appStem ++ ".js") = true)
            (isFileName_stylesheetName _ hext) rfl rfl hplain hrooted'
          rw [hfolder.placeOf_eq] at houtput
          simpa only [Except.mapError, hstyle, finishIn_eq] using hfolder.trans houtput

/-- A run whose paths are apart from the folder does the same on both trees. -/
theorem runIn_beside (raw : String) {answer : Except LoaderFault Compilation}
    (hrooted : tree.Rooted) (hother : other.Rooted)
    (hbeside : Beside made folder tree other)
    (hext : '/' ∉ context.options.platform.cssExtension.toList)
    (hplain : context.options.outputPath.Plain)
    (hapart : Apart folder (tree.placeOf context.options.outputPath))
    (hentry : context.entry.Plain ∧ Apart folder (tree.placeOf context.entry))
    (hsheets : ∀ left compilation,
      tree.createDirectories context.options.outputPath = (.ok (), left) →
      answer = .ok compilation → ∀ file ∈ compilation.styleFiles,
        ((Style.baseIn left context.entry).join file).Plain ∧
          Apart folder (tree.placeOf ((Style.baseIn left context.entry).join file))) :
    Alike (runIn context raw answer tree).1 (runIn context raw answer other).1 ∧
      Beside made folder (runIn context raw answer tree).2 (runIn context raw answer other).2 := by
  obtain ⟨hanswer, hfolder⟩ := createDirectories_beside hrooted hother hbeside hplain hapart
  have hsame := beside_createDirectories hrooted hplain
  have hrooted' := hrooted.createDirectories context.options.outputPath
  have hother' := hother.createDirectories context.options.outputPath
  unfold runIn
  rw [folderIn_eq, folderIn_eq]
  rcases hmade : tree.createDirectories context.options.outputPath with ⟨result, left⟩
  rcases hmade' : other.createDirectories context.options.outputPath with ⟨result', right⟩
  rw [hmade, hmade'] at hanswer hfolder
  rw [hmade] at hsame hrooted'
  rw [hmade'] at hother'
  obtain rfl : result' = result := hanswer
  cases result' with
  | error fault => exact ⟨.inl rfl, hfolder⟩
  | ok _ =>
  cases answer with
  | error fault => exact ⟨.inl rfl, hfolder⟩
  | ok compilation =>
      have hprocess := Style.processed_beside hrooted' hfolder
        ⟨hentry.1, (hsame.placeOf_eq context.entry).symm ▸ hentry.2⟩ fun file hfile => by
          rw [hsame.placeOf_eq]
          exact hsheets left compilation hmade rfl file hfile
      simp only [Except.mapError]
      rcases hprocess with hstyles | ⟨fault, fault', hmissing, hstyle, hstyle'⟩
      · rw [hstyles]
        cases Style.processed left compilation.styleFiles context.entry with
        | error fault => exact ⟨.inl rfl, hfolder⟩
        | ok style =>
            obtain ⟨hanswer, hleft⟩ := Output.outputIn_beside (outputOptions context)
              (Output.codeText (artifacts compilation style) raw (outputOptions context))
              (Output.styleText (artifacts compilation style) (outputOptions context))
              (by decide : Path.isFileName (appStem ++ ".js") = true)
              (isFileName_stylesheetName _ hext) rfl rfl hplain hrooted' hother' hfolder
              ((hsame.placeOf_eq context.options.outputPath).symm ▸ hapart)
            simp only [finishIn_eq]
            exact ⟨.inl (by rw [hanswer]), hleft⟩
      · rw [hstyle, hstyle']
        exact ⟨.inr ⟨fault, fault', hmissing, rfl, rfl⟩, hfolder⟩

end Loader

end MiniProgram
