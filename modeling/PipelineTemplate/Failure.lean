import PipelineTemplate.Value.Literal

/-!
# Failures

The causes for which reading, expansion and configuration fail, and the wording of those that are
reported to a user. A lower-level cause is worded by the caller.
-/

namespace PipelineTemplate

/-- The stage at which a YAML text turns out to be malformed. -/
inductive YamlStage where
  /-- A character that no YAML text contains. -/
  | characters
  | tokens
  | nesting
  /-- Anchors, aliases and the number of documents. -/
  | references
  | values
  deriving DecidableEq

/-- A malformed YAML text; the line counts from one. -/
structure YamlError where
  stage : YamlStage
  line : Option Nat
  deriving DecidableEq

/-- Contents that do not fit the tag given for them. -/
inductive TagMismatch where
  /-- A text that is no number, no date or no mapping. -/
  | number
  /-- A text that is no truth value. -/
  | truth
  /-- A sequence where a mapping is asked for. -/
  | mapping
  /-- An empty text where a number is asked for. -/
  | emptyNumber
  /-- A text that is not in the form of a date, or a mapping where a text is asked for. -/
  | form
  deriving DecidableEq

/-- The lower-level causes that a message quotes. -/
inductive Detail where
  | yaml (error : YamlError)
  /-- Bytes that are no UTF-8 text. -/
  | encoding
  | missingFile
  | directory
  deriving DecidableEq

/-- Where a malformed document comes from. -/
inductive Origin where
  | text
  | template (reference : String)
  | undecodable
  deriving DecidableEq

/-- The causes for which a YAML text has no value. -/
inductive Fault where
  | yaml (error : YamlError)
  | tag (mismatch : TagMismatch)
  /-- A number in base sixty is too large for a double. -/
  | arithmetic (cause : Number.Numeric.Undefined)
  /-- The escapes of a quoted expression turn it into something else than a text. -/
  | spanNotText
  /-- A number names no character. -/
  | noCharacter (beyondWord : Bool)
  /-- A document contains itself. -/
  | endless
  deriving DecidableEq

inductive Failure where
  /-- A number is too large for a double, or a remainder does not exist. -/
  | arithmetic (cause : Number.Numeric.Undefined)
  /-- A value has no JSON text. -/
  | notSerializable
  /-- A value has no YAML text. -/
  | notRepresentable
  | yaml (error : YamlError)
  | tag (mismatch : TagMismatch)
  /-- The escapes of a quoted expression turn it into something else than a text. -/
  | spanNotText
  /-- A number names no character. -/
  | noCharacter (beyondWord : Bool)
  /-- A document contains itself, or references lead to each other for ever. -/
  | endless
  | malformedDocument (origin : Origin) (detail : Detail) (file : Option String)
      (line : Option Nat)
  | unknownRepository (repository template : String)
  | repositoryWithoutLocation (repository template : String)
  | unreadableTemplate (template : String) (detail : Detail)
  | templateNotFound (template path : String)
  | recursiveTemplate (template : String) (chain : List String)
  | templatesTooDeep (template : String) (chain : List String) (limit : Int)
  | invalidOptions (locations : List String)
  | malformedSettings (path : String) (detail : Detail)
  | settingsNoMapping (path kind : String)
  | invalidSetting (problem field : String) (value : Value)
  /-- A setting whose name is no text. -/
  | namelessSetting
  /-- A variable of the environment that has to hold a list is no JSON text. -/
  | undecodableSetting
  /-- A file of settings is no UTF-8 text. -/
  | undecodableSettings
  | missingFile
  | directory

/-- The failure of a run that needs the value of a text. -/
def Fault.failure : Fault → Failure
  | .yaml error => .yaml error
  | .tag mismatch => .tag mismatch
  | .arithmetic cause => .arithmetic cause
  | .spanNotText => .spanNotText
  | .noCharacter beyondWord => .noCharacter beyondWord
  | .endless => .endless

namespace Failure

/-- The message for the failures that are reported to a user. -/
def message? (describe : Detail → String) : Failure → Option String
  | .malformedDocument .text detail _ _ => some ("Failed to parse YAML: " ++ describe detail)
  | .malformedDocument (.template reference) detail _ _ =>
    some ("Failed to parse template '" ++ reference ++ "': " ++ describe detail)
  | .malformedDocument .undecodable detail _ _ =>
    some ("Failed to decode pipeline as UTF-8: " ++ describe detail)
  | .unknownRepository repository template =>
    some ("Repository resource '" ++ repository ++ "' is not defined for template '" ++ template ++ "'.")
  | .repositoryWithoutLocation repository _ =>
    some ("Repository resource '" ++ repository ++ "' does not define a local location. " ++
      "Set a 'location' for this resource (for example via the 'resource_locations' setting or " ++
      "'--repo alias=path').")
  | .unreadableTemplate template detail =>
    some ("Failed to read template '" ++ template ++ "': " ++ describe detail)
  | .templateNotFound template _ => some ("Template file not found: " ++ template)
  | .recursiveTemplate template chain =>
    some ("Recursive template reference detected: " ++ Text.join " -> " (chain ++ [template]))
  | .templatesTooDeep template _ limit =>
    some ("Template nesting exceeds the maximum depth of " ++ Text.ofInt limit ++
      " while expanding '" ++ template ++ "'")
  | .malformedSettings path detail => some ("Invalid YAML in " ++ path ++ ": " ++ describe detail)
  | .settingsNoMapping path _ => some ("Config file " ++ path ++ " must contain a mapping")
  | .invalidSetting problem _ _ => some ("Invalid configuration: " ++ problem)
  | _ => none

end Failure

end PipelineTemplate
