import MiniProgram.Compiler.Program
import MiniProgram.Proofs.Host.Action
import MiniProgram.Proofs.Json.Fields
import MiniProgram.Proofs.Json.Writing

/-!
# What becomes of a compiler program

Read `compiler_outcome` first: how the output of a program, its status and the fate of its input
decide what the compiler returns. Which trees are records is said by `IsError`, `IsFailure` and
`IsSuccess` without a decoder, and the decoders follow these relations (`follows_decodeFailure`,
`follows_decodeSuccess`).
-/

namespace MiniProgram

open Json Decode

section Records

/-- The tree of the record of a place. -/
@[mk_iff]
structure IsPosition (node : Node) (position : Position) : Prop where
  record : node.IsRecord ["line", "column"]
  line : One (IsNatural (wordLimit 64)) (node.held ["line", "column"] "line") position.line
  column : One (IsNatural (wordLimit 64)) (node.held ["line", "column"] "column") position.column

/-- The tree of the record of an error, whose place may be null or missing. -/
@[mk_iff]
structure IsError (node : Node) (error : CompileError) : Prop where
  record : node.IsRecord ["message", "loc"]
  message : One IsText (node.held ["message", "loc"] "message") error.message
  position : OneOrNone none (NullOr IsPosition) (node.held ["message", "loc"] "loc") error.position

/-- The tree of an answer that reports an error: an object that holds one record under `error`. -/
def IsFailure (node : Node) (error : CompileError) : Prop :=
  ∃ entries, node = .object entries ∧ One IsError (Node.under "error" entries) error

/-- The names of the fields of a success. -/
def Success.names : List String :=
  ["code", "map", "cssFiles", "imported"]

/-- The tree of a path. -/
def IsPath (node : Node) (path : Path) : Prop :=
  IsText node path.text

/-- The tree of an answer that holds code. The map may be null, and all but the code may be
missing. -/
@[mk_iff]
structure IsSuccess (node : Node) (fields : Success) : Prop where
  record : node.IsRecord Success.names
  code : One IsText (node.held Success.names "code") fields.code
  map : OneOrNone none (NullOr (IsAny depthLimit)) (node.held Success.names "map") fields.map
  styleFiles :
    OneOrNone [] (IsList IsPath) (node.held Success.names "cssFiles") fields.styleFiles
  dependencies : ∃ flags,
    OneOrNone [] (IsEntries IsFlag) (node.held Success.names "imported") flags ∧
      fields.dependencies = Table.ofEntries flags

/-- What a success stands for: its fields, with the source map that its map is the text of. -/
@[mk_iff]
structure Success.Compiles (fields : Success) (compilation : Compilation) : Prop where
  code : compilation.code = fields.code
  map : fields.map = none ∧ compilation.map = none ∨
    ∃ value map, fields.map = some value ∧ compilation.map = some map ∧
      SourceMap.read value.write = .ok map
  styleFiles : compilation.styleFiles = fields.styleFiles
  dependencies : compilation.dependencies = fields.dependencies

end Records

section Decoders

/-- Reading a position follows its record. -/
theorem follows_position : Follows Position.decode IsPosition := by
  intro node hnode position
  have hnumber := follows_natural (wordLimit 64)
  rw [Position.decode, isPosition_iff]
  refine fields_bind_eq_ok_iff hnode (by decide) (fun found hfound => ?_) fun h => ?_
  · simp (disch := decide) only [except_bind_eq_ok_iff, required_eq_ok_iff hnumber hnode hfound]
    constructor
    · rintro ⟨line, hline, column, hcolumn, hposition⟩
      cases hposition
      exact ⟨hline, hcolumn⟩
    · rintro ⟨hline, hcolumn⟩
      exact ⟨_, hline, _, hcolumn, rfl⟩
  · simp only [List.forall_mem_cons, List.not_mem_nil, false_imp_iff, implies_true, and_true]
    exact ⟨h.1.passes hnumber hnode, h.2.passes hnumber hnode⟩

/-- Reading an error follows its record. -/
theorem follows_error : Follows CompileError.decode IsError := by
  intro node hnode error
  have hposition := follows_position.nullable
  rw [CompileError.decode, isError_iff]
  refine fields_bind_eq_ok_iff hnode (by decide) (fun found hfound => ?_) fun h => ?_
  · simp (disch := decide) only [except_bind_eq_ok_iff,
      required_eq_ok_iff follows_string hnode hfound, optional_eq_ok_iff hposition hnode hfound]
    constructor
    · rintro ⟨message, hmessage, position, hposition, herror⟩
      cases herror
      exact ⟨hmessage, hposition⟩
    · rintro ⟨hmessage, hposition⟩
      exact ⟨_, hmessage, _, hposition, rfl⟩
  · simp only [List.forall_mem_cons, List.not_mem_nil, false_imp_iff, implies_true, and_true]
    exact ⟨h.1.passes follows_string hnode, h.2.passes hposition hnode⟩

/-- Reading the answer of a compiler that failed follows its record. -/
theorem follows_decodeFailure : Follows Response.decodeFailure IsFailure := by
  intro node hnode error
  cases node with
  | object entries =>
      have hrecord : Response.decodeFailure (.object entries) = .ok error ↔
          (Node.object entries).IsRecord ["error"] ∧
            One IsError (Node.under "error" entries) error := by
        refine fields_bind_eq_ok_iff hnode (by decide) (fun found hfound => ?_) fun h => ?_
        · exact required_eq_ok_iff follows_error hnode hfound (by decide)
        · rw [List.forall_mem_singleton]
          exact One.passes follows_error hnode h
      simp [hrecord, Node.IsRecord, IsFailure]
  | null | bool | number | string | array | broken =>
      simp [Response.decodeFailure, Decode.openFields, IsFailure, bind, Except.bind]

/-- Reading a path follows the relation of a text. -/
theorem follows_path : Follows Path.decode IsPath := by
  intro node hnode path
  rw [Path.decode, IsPath, ← string_eq_ok_iff]
  cases string node with
  | error fault => simp [Except.map]
  | ok text => cases path; simp [Except.map]

/-- Reading the answer of a compiler that succeeded follows its record. -/
theorem follows_decodeSuccess : Follows Response.decodeSuccess IsSuccess := by
  intro node hnode fields
  have hmap := (follows_any depthLimit).nullable
  have hpaths := follows_path.list
  have hflags := follows_boolean.entries
  rw [Response.decodeSuccess, isSuccess_iff]
  refine fields_bind_eq_ok_iff hnode (by decide) (fun found hfound => ?_) fun h => ?_
  · simp (disch := decide) only [except_bind_eq_ok_iff, Response.decodeMap,
      required_eq_ok_iff follows_string hnode hfound, optional_eq_ok_iff hmap hnode hfound,
      optional_eq_ok_iff hpaths hnode hfound, optional_eq_ok_iff hflags hnode hfound]
    constructor
    · rintro ⟨code, hcode, map, hmap, paths, hpaths, flags, hflags, hfields⟩
      cases hfields
      exact ⟨hcode, hmap, hpaths, flags, hflags, rfl⟩
    · rintro ⟨hcode, hmap, hpaths, flags, hflags, hdependencies⟩
      refine ⟨_, hcode, _, hmap, _, hpaths, _, hflags, ?_⟩
      rw [← hdependencies]
      rfl
  · obtain ⟨hcode, hmap', hpaths', flags, hflags', -⟩ := h
    simp only [List.forall_mem_cons, List.not_mem_nil, false_imp_iff, implies_true, and_true]
    exact ⟨hcode.passes follows_string hnode, hmap'.passes hmap hnode,
      hpaths'.passes hpaths hnode, hflags'.passes hflags hnode⟩

end Decoders

section Answers

/-- Bytes that are the text of one value, whose tree is `node`. -/
def Spells (output : ByteArray) (node : Node) : Prop :=
  ∃ text, String.fromUTF8? output = some text ∧ Node.ofTokens (tokens text.toList) = (node, []) ∧
    (node.value? depthLimit).isSome = true

variable {output : ByteArray} {node : Node} {error : CompileError} {fields : Success}

/-- The tree of an answer denotes a value. -/
theorem Spells.denotes (h : Spells output node) : node.Denotes := by
  obtain ⟨_, _, _, hvalue⟩ := h
  exact ⟨_, hvalue⟩

/-- The tree of an answer is not nested too deeply. -/
theorem Spells.isNone_value? (h : Spells output node) :
    ¬ (node.value? depthLimit).isNone = true := by
  obtain ⟨_, _, _, hvalue⟩ := h
  rw [← Option.not_isSome, hvalue]
  decide

/-- The bytes of a value that does not nest too deeply hold its tree. -/
theorem spells_write {value : Value}
    (h : ((Node.ofValue value).value? depthLimit).isSome = true) :
    Spells value.write.toUTF8 (Node.ofValue value) := by
  refine ⟨value.write, ?_, ?_, h⟩
  · exact dif_pos value.write.isValidUTF8
  · rw [tokens_write, Node.ofTokens_tokens]

/-- A response is read from an output that holds one value. -/
theorem ofOutput?_eq_some_iff {response : Response} :
    Response.ofOutput? output = some response ↔
      ∃ node, Spells output node ∧ Response.decode node = .ok response := by
  simp only [Response.ofOutput?, Option.bind_eq_some_iff, Json.decode]
  constructor
  · rintro ⟨text, htext, h⟩
    rcases hread : Node.ofTokens (tokens text.toList) with ⟨node, rest⟩
    rw [hread] at h
    cases hdecode : Response.decode node with
    | error fault => simp [hdecode, bind, Except.bind, Except.toOption] at h
    | ok found =>
        cases rest with
        | cons token rest => simp [hdecode, bind, Except.bind, Except.toOption] at h
        | nil =>
            obtain rfl : found = response := by
              simpa [hdecode, bind, Except.bind, Except.toOption] using h
            refine ⟨node, ⟨text, htext, hread, ?_⟩, hdecode⟩
            -- decoding a response starts with its value, so there is one
            by_contra hnone
            rw [Response.decode, if_pos (by simpa using hnone)] at hdecode
            cases hdecode
  · rintro ⟨node, ⟨text, htext, hread, -⟩, hdecode⟩
    exact ⟨text, htext, by simp [hread, hdecode, bind, Except.bind, Except.toOption]⟩

/-- An answer is a failure if it is the record of one. -/
theorem decode_eq_failure_iff (h : Spells output node) :
    Response.decode node = .ok (.failure error) ↔ IsFailure node error := by
  rw [Response.decode, if_neg h.isNone_value?, ← follows_decodeFailure node h.denotes error]
  cases Response.decodeFailure node with
  | ok found => simp
  | error fault => cases Response.decodeSuccess node <;> simp

/-- An answer is a success if it is the record of one, and not the record of a failure. -/
theorem decode_eq_success_iff (h : Spells output node) :
    Response.decode node = .ok (.success fields) ↔
      (∀ error, ¬ IsFailure node error) ∧ IsSuccess node fields := by
  rw [Response.decode, if_neg h.isNone_value?, ← follows_decodeSuccess node h.denotes fields]
  simp only [← follows_decodeFailure node h.denotes]
  cases Response.decodeFailure node with
  | ok found => simp
  | error fault => cases Response.decodeSuccess node <;> simp

/-- A success is a compilation if its source map is one. -/
theorem compilation_eq_ok_iff {compilation : Compilation} :
    fields.compilation = .ok compilation ↔ fields.Compiles compilation := by
  obtain ⟨code, map, styleFiles, dependencies⟩ := fields
  obtain ⟨code', map', styleFiles', dependencies'⟩ := compilation
  rw [Success.compilation, Success.compiles_iff]
  cases map with
  | none => simp; grind
  | some value =>
      cases hread : SourceMap.read value.write with
      | error fault => simp [hread]
      | ok map => simp [hread]; grind

/-- A fault of a source map has no place. -/
theorem position_of_compilation (h : fields.compilation = .error error) :
    error.position = none := by
  rw [Success.compilation] at h
  split at h
  · cases h
  · split at h <;> cases h
    rfl

end Answers

section Results

variable {program : CompilerProgram} {outcome : Outcome} {node : Node} {error : CompileError}
  {fields : Success} {compilation : Compilation}

/-- An error that the output reports counts whatever the status is. -/
theorem result_of_failure (h : Spells outcome.output node) (herror : IsFailure node error) :
    program.result outcome = .error error := by
  have hresponse := ofOutput?_eq_some_iff.2 ⟨node, h, (decode_eq_failure_iff h).2 herror⟩
  rw [CompilerProgram.result, hresponse]

/-- A success counts if the program ended with success. -/
theorem result_of_success (h : Spells outcome.output node)
    (hnone : ∀ error, ¬ IsFailure node error) (hfields : IsSuccess node fields) :
    program.result outcome = if outcome.status.isSuccess then fields.compilation
      else .error (program.noResult outcome) := by
  have hresponse :=
    ofOutput?_eq_some_iff.2 ⟨node, h, (decode_eq_success_iff h).2 ⟨hnone, hfields⟩⟩
  rw [CompilerProgram.result, hresponse]

/-- What becomes of an answer: it reports a failure, or it is a success of a program that ended with
success, or there is no result. -/
theorem result_cases (program : CompilerProgram) (outcome : Outcome) :
    (∃ node error, Spells outcome.output node ∧ IsFailure node error ∧
        program.result outcome = .error error) ∨
      (∃ node fields, Spells outcome.output node ∧ (∀ error, ¬ IsFailure node error) ∧
        IsSuccess node fields ∧ outcome.status.isSuccess = true ∧
          program.result outcome = fields.compilation) ∨
        program.result outcome = .error (program.noResult outcome) := by
  cases hresponse : Response.ofOutput? outcome.output with
  | none => exact .inr (.inr (by rw [CompilerProgram.result, hresponse]))
  | some response =>
      obtain ⟨node, hnode, hdecode⟩ := ofOutput?_eq_some_iff.1 hresponse
      cases response with
      | failure error =>
          have herror := (decode_eq_failure_iff hnode).1 hdecode
          exact .inl ⟨node, error, hnode, herror, result_of_failure hnode herror⟩
      | success fields =>
          obtain ⟨hnone, hfields⟩ := (decode_eq_success_iff hnode).1 hdecode
          rw [result_of_success hnode hnone hfields]
          split
          · next hstatus => exact .inr (.inl ⟨node, fields, hnode, hnone, hfields, hstatus, rfl⟩)
          · exact .inr (.inr rfl)

/-- An error for the lack of a result has no position. -/
theorem position_noResult (program : CompilerProgram) (outcome : Outcome) :
    (program.noResult outcome).position = none := by
  rw [CompilerProgram.noResult]
  split <;> rfl

/-- There is a compilation exactly if the program ended with success and its answer is a success
whose source map is one, and not a failure. -/
theorem result_eq_ok_iff :
    program.result outcome = .ok compilation ↔
      outcome.status.isSuccess = true ∧ ∃ node fields, Spells outcome.output node ∧
        (∀ error, ¬ IsFailure node error) ∧ IsSuccess node fields ∧
          fields.Compiles compilation := by
  constructor
  · intro h
    rcases result_cases program outcome with
      ⟨_, _, -, -, hresult⟩ | ⟨node, fields, hnode, hnone, hfields, hstatus, hresult⟩ | hresult
    · cases hresult.symm.trans h
    · exact ⟨hstatus, node, fields, hnode, hnone, hfields,
        compilation_eq_ok_iff.1 (hresult.symm.trans h)⟩
    · cases hresult.symm.trans h
  · rintro ⟨hstatus, node, fields, hnode, hnone, hfields, hcompiles⟩
    rw [result_of_success hnode hnone hfields, if_pos hstatus]
    exact compilation_eq_ok_iff.2 hcompiles

/-- Only an error that the output reports has a place. -/
theorem position_of_result (h : program.result outcome = .error error) :
    (∃ node, Spells outcome.output node ∧ IsFailure node error) ∨ error.position = none := by
  rcases result_cases program outcome with
    ⟨node, reported, hnode, herror, hresult⟩ | ⟨_, fields, -, -, -, -, hresult⟩ | hresult
  · cases hresult.symm.trans h
    exact .inl ⟨node, hnode, herror⟩
  · exact .inr (position_of_compilation (hresult.symm.trans h))
  · cases hresult.symm.trans h
    exact .inr (position_noResult program outcome)

/-- The entries of an object but those under `error`. -/
def withoutError (entries : List (Node × Node)) : List (Node × Node) :=
  entries.filter fun entry => entry.1.text? != some "error"

/-- Taking the error out of an answer changes none of its other fields. -/
theorem under_withoutError {name : String} (h : name ≠ "error") (entries : List (Node × Node)) :
    Node.under name (withoutError entries) = Node.under name entries := by
  rw [Node.under, Node.under, withoutError, List.filter_filter]
  congr 2
  funext entry
  by_cases hname : entry.1.text? = some name
  · simp [hname, h]
  · simp [hname]

/-- What stands under `error` is no field of a success. -/
theorem isSuccess_withoutError {entries : List (Node × Node)} :
    IsSuccess (.object (withoutError entries)) fields ↔ IsSuccess (.object entries) fields := by
  simp (disch := decide) only [isSuccess_iff, Node.held, under_withoutError, Node.IsRecord]

end Results

namespace CompilerProgram

variable {σ : Type} {host : Host (StateM σ)} {program : CompilerProgram} {source : String}
  {options : CompilerOptions} {state next : σ} {outcome : Outcome}

/-- A compiler program that was launched and ended decides the answer of the compiler. -/
theorem run_compiler
    (h : (host.launch program.path program.arguments (request source options)).run state =
      (.ok outcome, next)) :
    (program.compiler host source options).run.run state = (program.result outcome, next) := by
  rw [compiler, run_lift_bind, h]
  show (ofExcept (program.result outcome) : ExceptT CompileError (StateM σ) Compilation).run.run
    next = _
  cases program.result outcome <;> rfl

/-- Of a program that was launched and ended, an error that its output reports counts whatever else
the output holds, how the program ended and whether it took its input. Else the output has to be a
success with a valid source map, and the status has to be a success too, or the error has no place.
What stands under `error` without being an error hides no success. -/
theorem compiler_outcome (host : Host (StateM σ)) (program : CompilerProgram) (source : String)
    (options : CompilerOptions) (state next : σ) (outcome : Outcome)
    (h : (host.launch program.path program.arguments (request source options)).run state =
      (.ok outcome, next)) :
    ∃ answer, (program.compiler host source options).run.run state = (answer, next) ∧
      (∀ compilation, answer = .ok compilation ↔
        outcome.status.isSuccess = true ∧ ∃ node fields, Spells outcome.output node ∧
          (∀ error, ¬ IsFailure node error) ∧ IsSuccess node fields ∧
            fields.Compiles compilation) ∧
      (∀ node error, Spells outcome.output node → IsFailure node error →
        answer = .error error) ∧
      (∀ error, answer = .error error →
        (∃ node, Spells outcome.output node ∧ IsFailure node error) ∨ error.position = none) ∧
      ∀ entries fields compilation, Spells outcome.output (.object entries) →
        (∀ error, ¬ IsFailure (.object entries) error) →
          IsSuccess (.object (withoutError entries)) fields → fields.Compiles compilation →
            outcome.status.isSuccess = true → answer = .ok compilation := by
  refine ⟨_, run_compiler h, fun _ => result_eq_ok_iff, fun _ _ => result_of_failure,
    fun _ => position_of_result, ?_⟩
  intro entries fields compilation hnode hnone hfields hcompiles hstatus
  exact result_eq_ok_iff.2 ⟨hstatus, _, fields, hnode, hnone,
    isSuccess_withoutError.1 hfields, hcompiles⟩

section Alone

/-- What a program does that always gives the same answer. -/
def answering (answer : Value) (status : Status) (delivered : Bool) : Behaviour :=
  fun _ _ _ => .ok ⟨answer.write.toUTF8, status, delivered⟩

/-- A machine with nothing but a compiler program. -/
def bare : Machine where
  files := { entries := [(["compile"], .file ⟨#[]⟩ true)], current := [] }
  journal := []

/-- The compiler program of the bare machine. -/
def onBare : CompilerProgram :=
  ⟨⟨"/compile"⟩, []⟩

/-- The bare machine launches its one program, which answers, and notes what it was given. -/
theorem launch_onBare (answer : Value) (status : Status) (delivered : Bool) (input : String) :
    ((Machine.host (answering answer status delivered)).launch onBare.path onBare.arguments
      input).run bare = (.ok ⟨answer.write.toUTF8, status, delivered⟩,
        { bare with journal := [.launched ["compile"] [] input] }) := by
  have hprogram : Machine.executable bare.files onBare.path onBare.arguments =
      .ok (["compile"], ⟨#[]⟩) := by decide +kernel
  show Machine.launch (answering answer status delivered) onBare.path onBare.arguments input
    bare = _
  rw [Machine.launch, hprogram]
  rfl

/-- The options of a run on the bare machine. -/
def bareOptions : CompilerOptions where
  resourcePath := ⟨"/app.js"⟩
  outputPath := ⟨"/dist"⟩
  sourcePath := ⟨"/"⟩
  platform := ⟨"Test Platform", none, ".css"⟩
  artifact := .app
  sourceFileName := ⟨"/app.js"⟩
  disableCopyNpm := false
  turnOffSourceMap := false
  extra := []

/-- An answer that holds both code and an error. -/
def divided : Value :=
  .object [("code", .string "X"), ("error", CompileError.toJson ⟨"bad", some ⟨2, 3⟩⟩)]

/-- An answer that holds code, and a number as its error. -/
def garbled : Value :=
  .object [("error", .nat 5), ("code", .string "X")]

/-- The reported error counts although the program was killed, and the number hides no code. -/
theorem compiler_outcome_bare :
    ((onBare.compiler (Machine.host (answering divided (.signalled 9) false)) ""
      bareOptions).run.run bare).1 = .error ⟨"bad", some ⟨2, 3⟩⟩ ∧
    ((onBare.compiler (Machine.host (answering garbled (.exited 0) false)) ""
      bareOptions).run.run bare).1 = .ok ⟨"X", none, [], []⟩ := by
  constructor
  · have hspells : Spells divided.write.toUTF8 (Node.ofValue divided) :=
      spells_write (by decide +kernel)
    have hfailure : IsFailure (Node.ofValue divided) ⟨"bad", some ⟨2, 3⟩⟩ :=
      (follows_decodeFailure _ hspells.denotes _).1 (by decide +kernel)
    obtain ⟨answer, hrun, -, hreported, -⟩ := compiler_outcome _ onBare "" bareOptions bare _ _
      (launch_onBare divided (.signalled 9) false (request "" bareOptions))
    rw [hrun]
    exact hreported _ _ hspells hfailure
  · have hspells : Spells garbled.write.toUTF8 (Node.ofValue garbled) :=
      spells_write (by decide +kernel)
    have hnone : ∀ error, ¬ IsFailure (Node.ofValue garbled) error := by
      intro error herror
      rw [← follows_decodeFailure _ hspells.denotes] at herror
      have hfault : Response.decodeFailure (Node.ofValue garbled) = .error .invalidType := by
        decide +kernel
      cases hfault.symm.trans herror
    have hfields : IsSuccess (Node.ofValue garbled) ⟨"X", none, [], []⟩ :=
      (follows_decodeSuccess _ hspells.denotes _).1 rfl
    obtain ⟨answer, hrun, -, -, -, hhides⟩ := compiler_outcome _ onBare "" bareOptions bare _ _
      (launch_onBare garbled (.exited 0) false (request "" bareOptions))
    rw [hrun]
    exact hhides _ _ _ hspells hnone (isSuccess_withoutError.2 hfields)
      ⟨rfl, .inl ⟨rfl, rfl⟩, rfl, rfl⟩ rfl

end Alone

end CompilerProgram

end MiniProgram
