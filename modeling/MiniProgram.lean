import MiniProgram.Machine
import MiniProgram.Main
import MiniProgram.Proofs.Module.Elimination
import MiniProgram.Proofs.Module.Removal
import MiniProgram.Proofs.Script.Elimination
import MiniProgram.Proofs.Source.Nesting
import MiniProgram.Registry
import MiniProgram.Proofs.Files.Growth
import MiniProgram.Proofs.Host.Action
import MiniProgram.Proofs.Loader.Stages
import MiniProgram.Proofs.Loader.Atomicity
import MiniProgram.Proofs.Loader.Artifacts
import MiniProgram.Proofs.Dependency.Lexer
import MiniProgram.Proofs.Dependency.Reading
import MiniProgram.Proofs.Files.Names
import MiniProgram.Proofs.Path.Order
import MiniProgram.Proofs.Package.Candidates
import MiniProgram.Proofs.Package.Selection
import MiniProgram.Proofs.Source.Lexeme
import MiniProgram.Proofs.Source.Preservation
import MiniProgram.Proofs.Package.Precedence
import MiniProgram.Proofs.Loader.Embedding
import MiniProgram.Proofs.Foremost
import MiniProgram.Proofs.Registry
import MiniProgram.Proofs.Host.Question
import MiniProgram.Proofs.Style.Processing
import MiniProgram.Proofs.Loader.Stylesheet
import MiniProgram.Proofs.Json.Record
import MiniProgram.Proofs.Source.ElseBranch
import MiniProgram.Proofs.Options
import MiniProgram.Proofs.Host.Effect
import MiniProgram.Proofs.Loader.Effect
import MiniProgram.Proofs.Path.Parent
import MiniProgram.Proofs.Source.Termination
import MiniProgram.Proofs.Files.Stability
import MiniProgram.Proofs.Loader.Repetition
import MiniProgram.Proofs.Files.Location
import MiniProgram.Proofs.Files.Making
import MiniProgram.Proofs.Files.Beside
import MiniProgram.Proofs.Loader.Interference
import MiniProgram.Proofs.Loader.Independence
import MiniProgram.Proofs.Style.Lines
import MiniProgram.Proofs.Style.Token
import MiniProgram.Proofs.Style.Compaction
import MiniProgram.Proofs.Style.Ending
import MiniProgram.Proofs.Bytes.Elimination
import MiniProgram.Proofs.Compiler.Location
import MiniProgram.Proofs.Style.Address
import MiniProgram.Proofs.Module.Deletion
import MiniProgram.Proofs.Json.Writing
import MiniProgram.Proofs.Json.Fields
import MiniProgram.Proofs.Compiler.Outcome
import MiniProgram.Proofs.Wire
import MiniProgram.Proofs.Style.Composition
import MiniProgram.Proofs.Base64
import MiniProgram.Proofs.SourceMap.Contents
import MiniProgram.Proofs.Loader.Inlining
import MiniProgram.Proofs.Style.Normal
import MiniProgram.Proofs.Bytes.Pairs
