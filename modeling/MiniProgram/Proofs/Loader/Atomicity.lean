import MiniProgram.Proofs.Loader.Collaborators

/-!
# Runs that fail

Read `run_failure_atomic` first: a run that fails leaves all files as they were. The one exception
is a run that fails at the stylesheet, which it writes last; it leaves the code, and all of it. A
run whose source cannot be read does not even make a directory.

This needs no more of the host than that its operations are all or nothing, whatever they fail for.
-/

namespace MiniProgram.Loader

open FileTree

variable {σ : Type} {files : σ → FileTree} {loader : Loader (StateM σ)}

/-- A run whose source cannot be read stops there. -/
theorem runFile_of_error {context : LoaderContext} {state last : σ} {cause : FileFault}
    (h : (loader.host.readText context.resource).run state = (.error cause, last)) :
    (loader.runFile context).run.run state = (.error (.source context.resource cause), last) := by
  rw [runFile, run_lift_bind, h]
  rfl

/-- A run that fails changes no file and makes no more than directories, unless it fails at the
stylesheet. Then the code stands where its path leads, complete, and no other file has changed. A
run whose source cannot be read changes nothing at all. -/
theorem run_failure_atomic (hloader : loader.Confined files) (context : LoaderContext) :
    (∀ raw state fault last, (loader.run context raw).run.run state = (.error fault, last) →
      (files state).Grows [] (files last) ∨
        (∃ cause, fault = .output ⟨(outputOptions context).stylePath, cause⟩) ∧
          ∃ compilation style produced location,
            (loader.produce context raw).run.run state = (.ok (compilation, style), produced) ∧
            (files state).Grows [location] (files last) ∧
            (files last).locate (outputOptions context).codePath = .ok location ∧
            (files last).readText (outputOptions context).codePath =
              .ok (Output.codeText (artifacts compilation style) raw (outputOptions context))) ∧
      ∀ state cause last,
        (loader.host.readText context.resource).run state = (.error cause, last) →
        (loader.runFile context).run.run state = (.error (.source context.resource cause), last) ∧
          files last = files state := by
  refine ⟨fun raw state fault last h => ?_, fun state cause last h => ⟨runFile_of_error h, ?_⟩⟩
  · have hproduce := moves_produce hloader context raw state
    rw [run_eq, run_bind_eq_error_iff] at h
    rcases h with h | ⟨⟨compilation, style⟩, produced, hproduced, h⟩
    · rw [h] at hproduce
      exact .inl hproduce
    · rw [hproduced] at hproduce
      have hgrows : (files state).Grows [] (files produced) := hproduce
      rcases finish_cases h with ⟨cause, hfault, hwrite⟩ | ⟨hok, -⟩
      · obtain rfl := Except.error.inj hfault
        rw [hloader.writer] at hwrite
        rcases Output.write_cases hloader.host hwrite with
          ⟨hleft, -⟩ | ⟨⟨location, hleft, hcode⟩, cause, hstyle⟩ | ⟨-, hok⟩
        · exact .inl (hgrows.trans hleft)
        · obtain rfl := Except.error.inj hstyle
          exact .inr ⟨⟨cause, rfl⟩, compilation, style, produced, location, hproduced,
            hgrows.weaken.trans hleft, hcode.locate, hcode.readText⟩
        · cases hok
      · cases hok
  · have hsame := hloader.host.readText context.resource state
    rwa [h] at hsame

section Blocked

/-- A project with the code of an earlier run, where a directory stands in the way of the
stylesheet. -/
def blockedProject : Machine :=
  project [
    (["dist"], .directory),
    (["dist", "app.js"], .file "old".toUTF8 false),
    (["dist", "app.css"], .directory)]

/-- A run that is blocked at the stylesheet leaves the new code in place of the old one, and a run
without a source leaves nothing. -/
theorem run_failure_atomic_blocked :
    (installed plainResponse).Confined Machine.files ∧
      (∃ last location,
        ((installed plainResponse).run (developing ".css") "").run.run blockedProject =
          (.error (.output ⟨⟨"dist/app.css"⟩, .isDirectory⟩), last) ∧
        blockedProject.files.Grows [location] last.files ∧
        last.files.locate ⟨"dist/app.js"⟩ = .ok location ∧
        last.files.readText ⟨"dist/app.js"⟩ = .ok "X") ∧
      ∃ last,
        ((installed plainResponse).runFile (developing ".css")).run.run blockedProject =
          (.error (.source ⟨"src/app.js"⟩ .notFound), last) ∧
        last.files = blockedProject.files := by
  have hconfined := confined_installed plainResponse
  have hread : ((installed plainResponse).host.readText ⟨"src/app.js"⟩).run blockedProject =
      (.error .notFound, blockedProject) := Prod.ext (by decide +kernel) rfl
  have hmissing := (run_failure_atomic hconfined (developing ".css")).2 _ _ _ hread
  refine ⟨hconfined, ?_, blockedProject, hmissing⟩
  rcases hrun : ((installed plainResponse).run (developing ".css") "").run.run blockedProject
    with ⟨result, last⟩
  have hends : (result, last.files.readText ⟨"dist/app.js"⟩) =
      (.error (.output ⟨⟨"dist/app.css"⟩, .isDirectory⟩), .ok "X") :=
    (congrArg (fun outcome => (outcome.1, outcome.2.files.readText ⟨"dist/app.js"⟩))
      hrun).symm.trans (by decide +kernel)
  obtain ⟨rfl, hcode⟩ := Prod.mk.inj hends
  rcases (run_failure_atomic hconfined (developing ".css")).1 _ _ _ _ hrun with
    hgrows | ⟨-, compilation, style, produced, location, -, hgrows, hlocate, -⟩
  · -- the code of the earlier run would still be there
    have hold : blockedProject.files.readText ⟨"dist/app.js"⟩ = .ok "old" := by decide +kernel
    rw [hgrows.readText hold] at hcode
    exact absurd hcode (by decide)
  · exact ⟨last, location, rfl, hgrows, hlocate, hcode⟩

end Blocked

end MiniProgram.Loader
