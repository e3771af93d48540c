import PipelineTemplate.Resources
import PipelineTemplate.Path

/-!
# Contexts

The names and places that are visible at one point of a document. A loop adds names, and a template
has the parameters passed to it over those of its caller and its own directory.
-/

namespace PipelineTemplate

structure Context where
  parameters : Entries := []
  variableValues : Entries := []
  resources : Resources := {}
  /-- The loop variables. -/
  locals : Entries := []
  /-- The directory that relative template paths start from. -/
  directory : String
  /-- The root of the repository that the document belongs to. -/
  repository : Option String := none
  /-- The directories of repositories that have no location of their own, by alias. -/
  locations : List (String × String) := []
  workspace : Option String := none
  /-- The templates around this point, the outermost first. -/
  templates : List String := []

namespace Context

/-- The context with further local names. -/
def child (ctx : Context) (locals : Entries) : Context :=
  { ctx with locals := ctx.locals.update locals }

/-- The context inside a template. -/
def forTemplate (ctx : Context) (parameters : Entries) (path : String)
    (repository : Option String) : Context :=
  { ctx with
    parameters := ctx.parameters.update parameters
    directory := if Path.parent path = "" then ctx.directory else Path.parent path
    repository := repository.or ctx.repository
    templates := ctx.templates ++ [path] }

@[simp] theorem forTemplate_templates (ctx : Context) (parameters : Entries) (path : String)
    (repository : Option String) :
    (ctx.forTemplate parameters path repository).templates = ctx.templates ++ [path] := rfl

/-- How many templates are around this point. -/
def depth (ctx : Context) : Nat := ctx.templates.length

/-- The values that have a name of their own. -/
def root? (ctx : Context) : String → Option Value
  | "parameters" => some (.map ctx.parameters)
  | "variables" => some (.map ctx.variableValues)
  | "resources" => some ctx.resources.toValue
  | "locals" => some (.map ctx.locals)
  | _ => none

end Context

end PipelineTemplate
