import MiniProgram.Proofs.Compiler.Outcome
import MiniProgram.Proofs.Json.Writing
import MiniProgram.Proofs.Options

/-!
# Records on the wire

The records that go from one program to another as JSON text come back as they were
(`records_read_back`). The text of a record is decoded like its tree (`decode_write`), and in the
tree every field that was written is found under its key.
-/

namespace MiniProgram

open Json

section Numbers

/-- A number of 64 bits is decoded from its numeral. -/
theorem decode_natural {n : Nat} (h : n < wordLimit 64) :
    Decode.natural (wordLimit 64) (Node.ofValue (.nat n)) = .ok n := by
  show Decode.natural (wordLimit 64) (.number (.ofNat n)) = .ok n
  simp only [Decode.natural, number?_ofNat h, if_pos h]

end Numbers

section Errors

/-- A place whose numbers fit in 64 bits. -/
def Position.Fits (position : Position) : Prop :=
  position.line < wordLimit 64 ∧ position.column < wordLimit 64

/-- A position is read back if its numbers fit. -/
theorem Position.decode_ofValue {position : Position} (h : position.Fits) :
    decode (Node.ofValue position.toJson) = .ok position := by
  obtain ⟨line, column⟩ := position
  have hline := decode_natural h.1
  have hcolumn := decode_natural h.2
  have hnodup : ([("line", Value.nat line), ("column", .nat column)].map Prod.fst).Nodup := by simp
  rw [decode, except_bind_eq_ok_iff]
  refine ⟨_, (Decode.fields_eq_ok_iff hnodup).2 ⟨?_, rfl⟩, ?_⟩
  · simp only [List.forall_mem_cons, List.not_mem_nil, false_imp_iff, implies_true, and_true]
    exact ⟨Decode.accepts_of_decodes rfl hline, Decode.accepts_of_decodes rfl hcolumn⟩
  · rw [Decode.required_at hnodup (by decide) 0 rfl hline,
      Decode.required_at hnodup (by decide) 1 rfl hcolumn]
    rfl

namespace CompileError

variable {error : CompileError}

/-- The place of an error is decoded, if there is one, and else there is none. -/
theorem decode_place (h : ∀ position ∈ error.position, position.Fits) :
    Decode.nullable Position.decode (Node.ofValue (error.position.elim .null Position.toJson)) =
      .ok error.position := by
  cases hposition : error.position with
  | none => rfl
  | some position =>
      show (Position.decode (Node.ofValue position.toJson)).map some = _
      rw [Position.decode_ofValue (h position hposition)]
      rfl

/-- An error is read back if its position fits. -/
theorem decode_ofValue (h : ∀ position ∈ error.position, position.Fits) :
    decode (Node.ofValue error.toJson) = .ok error := by
  have hmessage := Decode.string_ofValue error.message
  have hplace := decode_place h
  have hnodup : ([("message", Value.string error.message),
      ("loc", error.position.elim .null Position.toJson)].map Prod.fst).Nodup := by simp
  rw [decode, except_bind_eq_ok_iff]
  refine ⟨_, (Decode.fields_eq_ok_iff hnodup).2 ⟨?_, rfl⟩, ?_⟩
  · simp only [List.forall_mem_cons, List.not_mem_nil, false_imp_iff, implies_true, and_true]
    exact ⟨Decode.accepts_of_decodes rfl hmessage, Decode.accepts_of_decodes rfl hplace⟩
  · rw [Decode.required_at hnodup (by decide) 0 rfl hmessage,
      Decode.optional_at hnodup (by decide) 1 rfl hplace]
    rfl

/-- The answer that reports an error. -/
def answer (error : CompileError) : Value :=
  .object [("error", error.toJson)]

/-- The answer of a compiler that reports an error is read as that error. -/
theorem decodeFailure_answer (h : ∀ position ∈ error.position, position.Fits) :
    Response.decodeFailure (Node.ofValue error.answer) = .ok error := by
  have herror := decode_ofValue h
  have hnodup : ([("error", error.toJson)].map Prod.fst).Nodup := by simp
  rw [Response.decodeFailure, except_bind_eq_ok_iff]
  refine ⟨_, (Decode.openFields_eq_ok_iff hnodup).2 ⟨?_, rfl⟩, ?_⟩
  · rw [List.forall_mem_singleton]
    exact Decode.accepts_of_decodes rfl herror
  · exact Decode.required_at hnodup (by decide) 0 rfl herror

/-- Such an answer denotes a value. -/
theorem isSome_value?_answer (h : ∀ position ∈ error.position, position.Fits) :
    ((Node.ofValue error.answer).value? depthLimit).isSome = true := by
  obtain ⟨message, position⟩ := error
  cases position with
  | none => rfl
  | some position =>
      obtain ⟨hline, hcolumn⟩ := h position rfl
      simp [answer, toJson, Position.toJson, Value.nat, Node.ofValue, Node.ofEntries,
        Node.value?, Node.entries?, Node.text?, Number.numeral, depthLimit, number?_ofNat hline,
        number?_ofNat hcolumn]

end CompileError

end Errors

section Outputs

/-- The bytes of an answer that reports an error hold a failure with this error. -/
theorem isFailure_answer {error : CompileError} (h : ∀ position ∈ error.position, position.Fits) :
    Spells error.answer.write.toUTF8 (Node.ofValue error.answer) ∧
      IsFailure (Node.ofValue error.answer) error := by
  have hspells := spells_write (CompileError.isSome_value?_answer h)
  exact ⟨hspells, (follows_decodeFailure _ hspells.denotes error).1
    (CompileError.decodeFailure_answer h)⟩

end Outputs

section Options

/-- A mode is read back from its name. -/
theorem Mode.decode_ofValue (mode : Mode) :
    Decode.variants named (Node.ofValue (.string mode.name)) = .ok mode := by
  cases mode <;> rfl

/-- The record of options is decoded to the options. -/
theorem LoaderOptions.decode_ofValue (options : LoaderOptions) :
    decode (Node.ofValue options.toJson) = .ok options := by
  obtain ⟨entryPath, outputPath, platform, mode, disableCopyNpm, turnOffSourceMap⟩ := options
  have hentry := Path.decode_ofValue entryPath
  have houtput := Path.decode_ofValue outputPath
  have hplatform := Platform.decode_ofValue platform
  have hmode := mode.decode_ofValue
  have hcopy := CompilerOptions.decode_boolean disableCopyNpm
  have hmap := CompilerOptions.decode_boolean turnOffSourceMap
  have hnodup : ([("entryPath", Value.string entryPath.text),
      ("outputPath", .string outputPath.text), ("platform", platform.toJson),
      ("mode", .string mode.name), ("disableCopyNpm", .bool disableCopyNpm),
      ("turnOffSourceMap", .bool turnOffSourceMap)].map Prod.fst).Nodup := by simp
  rw [decode, except_bind_eq_ok_iff]
  refine ⟨_, (Decode.fields_eq_ok_iff hnodup).2 ⟨?_, rfl⟩, ?_⟩
  · simp only [List.forall_mem_cons, List.not_mem_nil, false_imp_iff, implies_true, and_true]
    exact ⟨Decode.accepts_of_decodes rfl hentry, Decode.accepts_of_decodes rfl houtput,
      Decode.accepts_of_decodes rfl hplatform, Decode.accepts_of_decodes rfl hmode,
      Decode.accepts_of_decodes rfl hcopy, Decode.accepts_of_decodes rfl hmap⟩
  · rw [Decode.required_at hnodup (by decide) 0 rfl hentry,
      Decode.required_at hnodup (by decide) 1 rfl houtput,
      Decode.required_at hnodup (by decide) 2 rfl hplatform,
      Decode.optional_at hnodup (by decide) 3 rfl hmode,
      Decode.optional_at hnodup (by decide) 4 rfl hcopy,
      Decode.optional_at hnodup (by decide) 5 rfl hmap]
    rfl

end Options

section Texts

/-- Options, platforms and errors come back from the text of their record, whatever their strings
hold. A compiler program that answers with the object that holds the record of an error makes the
compiler return this error, however the program ends. -/
theorem records_read_back :
    (∀ options : LoaderOptions,
      Json.decode LoaderOptions.decode options.toJson.write = .ok options) ∧
    (∀ platform : Platform, Json.decode Platform.decode platform.toJson.write = .ok platform) ∧
    ∀ error : CompileError, (∀ position ∈ error.position, position.Fits) →
      Json.decode CompileError.decode error.toJson.write = .ok error ∧
      ∀ {σ : Type} (host : Host (StateM σ)) (program : CompilerProgram) (source : String)
        (options : CompilerOptions) (state next : σ) (status : Status) (delivered : Bool),
        (host.launch program.path program.arguments (request source options)).run state =
            (.ok ⟨(Value.object [("error", error.toJson)]).write.toUTF8, status, delivered⟩,
              next) →
          (program.compiler host source options).run.run state = (.error error, next) := by
  refine ⟨fun options => ?_, fun platform => ?_, fun error hfits => ⟨?_, ?_⟩⟩
  · rw [decode_write, options.decode_ofValue]
  · rw [decode_write, platform.decode_ofValue]
  · rw [decode_write, CompileError.decode_ofValue hfits]
  · intro σ host program source options state next status delivered hlaunch
    obtain ⟨hspells, hfailure⟩ := isFailure_answer hfits
    -- what counts of the output is what it holds
    rw [CompileError.answer] at hspells
    generalize (Value.object [("error", error.toJson)]).write.toUTF8 = output at hlaunch hspells
    have hresult : program.result ⟨output, status, delivered⟩ = .error error :=
      result_of_failure hspells hfailure
    rw [CompilerProgram.run_compiler hlaunch, hresult]

/-- An error with the greatest numbers, and with characters that are escaped. -/
def CompileError.greatest : CompileError :=
  ⟨"\x00\"\\\u2028😀", some ⟨18446744073709551615, 18446744073709551615⟩⟩

/-- This error comes back, also as the answer of a program that is killed. -/
theorem records_read_back_greatest :
    Json.decode CompileError.decode CompileError.greatest.toJson.write = .ok .greatest ∧
    ((CompilerProgram.onBare.compiler (Machine.host (CompilerProgram.answering
        CompileError.greatest.answer (.signalled 9) false)) ""
      CompilerProgram.bareOptions).run.run CompilerProgram.bare).1 = .error .greatest := by
  have hfits : ∀ position ∈ CompileError.greatest.position, position.Fits := by
    rintro _ ⟨⟩
    exact ⟨by decide, by decide⟩
  obtain ⟨hdecode, hanswer⟩ := records_read_back.2.2 .greatest hfits
  refine ⟨hdecode, ?_⟩
  rw [hanswer _ _ _ _ _ _ (.signalled 9) false
    (CompilerProgram.launch_onBare CompileError.greatest.answer (.signalled 9) false
      (request "" CompilerProgram.bareOptions))]

end Texts

end MiniProgram
