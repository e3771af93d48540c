import PipelineTemplate.Yaml.Cursor

/-!
# Tokens of YAML text

Indicators, the marks where block collections begin and end, scalars, anchors and tags, and the
directives before a document.
-/

namespace PipelineTemplate.Yaml

/-- The ways to write a scalar. -/
inductive Style where
  | plain | single | double | literal | folded
  deriving DecidableEq

/-- The lines before a document. -/
inductive Prologue where
  | version (major : Nat)
  | tag (handle start : String)
  | other
  deriving DecidableEq

inductive Mark where
  | streamStart | streamEnd | documentStart | documentEnd
  | blockSequence | blockMapping | blockEnd
  | openSequence | closeSequence | openMapping | closeMapping
  | key | value | blockEntry | flowEntry
  deriving DecidableEq

inductive Token where
  | mark (m : Mark)
  | prologue (p : Prologue)
  | aliasOf (name : String)
  | anchor (name : String)
  /-- A tag; without a handle the suffix is the whole tag. -/
  | tag (handle : Option String) (suffix : String)
  | scalar (text : String) (style : Style)
  deriving DecidableEq

/-- A token and the line that it starts on, counted from zero. -/
structure Lexeme where
  token : Token
  line : Nat
  deriving DecidableEq

end PipelineTemplate.Yaml
