import MiniProgram.SourceMap.DebugId
import MiniProgram.SourceMap.Mapping

/-!
# Source maps

A source map tells for places of a generated text where they come from. It names the sources, and
it may hold their contents, so that they need not be at hand when they are shown.
-/

namespace MiniProgram

namespace SourceMap

/-- A source of the generated text, with its content if that is known. -/
structure Source where
  name : String
  content : Option String
  deriving DecidableEq, Repr

end SourceMap

/-- A source map. `ignored` lists indices of sources, in increasing order. -/
structure SourceMap where
  file : Option String
  sourceRoot : Option String
  sources : List SourceMap.Source
  names : List String
  mappings : List SourceMap.Mapping
  ignored : List Nat
  debugId : Option SourceMap.DebugId
  deriving DecidableEq, Repr

namespace SourceMap

/-- `map.embed raw always` gives the content `raw` to every source without a content, or to every
source. -/
def embed (map : SourceMap) (raw : String) (always : Bool) : SourceMap :=
  { map with
    sources := map.sources.map fun source =>
      { source with content := some (if always then raw else source.content.getD raw) } }

end SourceMap

end MiniProgram
