import MiniProgram.Json.Decode

/-!
# Faults of source maps

Why a text is not a source map.
-/

namespace MiniProgram

open Json

/-- Why a text is not a source map. -/
inductive MapFault where
  | expectedNewline
  | record (fault : Fault)
  | notBase64 (found : Char)
  | overflow
  | leftover
  | segmentSize (count : Nat)
  | sourceReference (index : Nat)
  | nameReference (index : Nat)
  | incompatible
  deriving DecidableEq, Repr

/-- The text of a fault. -/
def MapFault.message : MapFault → String
  | .expectedNewline => "expected newline"
  | .record fault => "bad json: " ++ fault.message
  | .notBase64 found => "invalid base64 character: " ++ String.ofList [found]
  | .overflow => "vlq decode caused an overflow"
  | .leftover => "leftover cur/shift in vlq decode"
  | .segmentSize count => "got " ++ toString count ++ " segments, expected 4 or 5"
  | .sourceReference index => "bad reference to source #" ++ toString index
  | .nameReference index => "bad reference to name #" ++ toString index
  | .incompatible => "encountered incompatible sourcemap format"

end MiniProgram
