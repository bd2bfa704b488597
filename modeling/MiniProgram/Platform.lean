import MiniProgram.Json.Decode

/-!
# Target platforms

A platform is a mini-program host that an app is compiled for. It has a name for messages, a short
kind if it is a known one, and the extension of its stylesheets. Every app stylesheet starts with
the same base rules, which the compiled templates rely on.
-/

namespace MiniProgram

open Json

/-- A target platform. The stylesheet extension includes its dot. -/
structure Platform where
  name : String
  kind : Option String
  cssExtension : String
  deriving DecidableEq, Repr

namespace Platform

/-- The known platforms. -/
def known : List Platform := [
  ⟨"Alibaba MiniApp", some "ali", ".acss"⟩,
  ⟨"WeChat MiniProgram", some "wechat", ".wxss"⟩,
  ⟨"ByteDance MicroApp", some "bytedance", ".ttss"⟩,
  ⟨"Baidu SmartProgram", some "baidu", ".css"⟩,
  ⟨"QuickApp", some "quickapp", ".css"⟩]

/-- The known platform of a kind. -/
def ofKind? (kind : String) : Option Platform :=
  known.find? fun platform => platform.kind == some kind

/-- The name of the stylesheet with a given stem. -/
def stylesheetName (platform : Platform) (stem : String) : String :=
  stem ++ platform.cssExtension

/-- The record of a platform. An unknown kind is left out. -/
def toJson (platform : Platform) : Value :=
  .object <| ("name", .string platform.name) ::
    (platform.kind.toList.map fun kind => ("type", Value.string kind)) ++
    [("extension", .object [("css", .string platform.cssExtension)])]

/-- Decodes the record of the file extensions. -/
def decodeExtension : Decoder String := fun node => do
  let fields ← Decode.fields [("css", Decode.check Decode.string)] node
  fields.required "css" Decode.string

/-- Decodes the record of a platform. -/
def decode : Decoder Platform := fun node => do
  let fields ← Decode.fields
    [("name", Decode.check Decode.string),
      ("type", Decode.check (Decode.nullable Decode.string)),
      ("extension", Decode.check decodeExtension)] node
  let name ← fields.required "name" Decode.string
  let kind ← fields.optional "type" (Decode.nullable Decode.string) none
  let cssExtension ← fields.required "extension" decodeExtension
  return ⟨name, kind, cssExtension⟩

end Platform

/-- The rules that every app stylesheet starts with. -/
def baseStyle : String :=
  ".__rax-view \x7b\n" ++
  "  border: 0 solid black;\n" ++
  "  display: flex;\n" ++
  "  flex-direction: column;\n" ++
  "  align-content: flex-start;\n" ++
  "  flex-shrink: 0;\n" ++
  "  box-sizing: border-box;\n" ++
  "\x7d\n"

/-- `mergeStyle style` is the stylesheet of an app with the given style of its own. -/
def mergeStyle (style : Option String) : String :=
  baseStyle ++ style.getD ""

end MiniProgram
