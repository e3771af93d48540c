import PipelineTemplate.Resources

/-!
# Parameters and variables

The sections in which documents declare parameters and variables, either as lists of named entries or
as mappings from names, and the parameters that are passed to a template.
-/

namespace PipelineTemplate

/-- The first of the values that is defined. -/
def firstDefined : List Value → Value
  | [] => .undefined
  | .undefined :: rest => firstDefined rest
  | v :: _ => v

/-- The value that the first defined one of the keys has. -/
def Value.firstField (v : Value) (keys : List String) : Value :=
  firstDefined (keys.map v.field)

/-- The value of a declared parameter: its value, its default, its list of values or null. -/
def declaredValue (definition : Value) : Value :=
  match definition.firstField ["value", "default", "values"] with
  | .undefined => .null
  | v => v

/-- The name of a listed declaration; a declaration without one is passed over. -/
def declaredName? (definition : Value) : Option Value :=
  let name := definition.field "name"
  if definition.isMapping && !name.isVacant then some (.text name.display) else none

/-- The entries of a section: those of its listed declarations, or of its mapping. -/
def sectionEntries (section_ : Value) (listed : Value → Value) (mapped : Value → Value) : Entries :=
  match section_.list? with
  | some items =>
    Entries.ofPairs (items.filterMap fun definition =>
      (declaredName? definition).map fun name => (name, listed definition))
  | none => ((section_.entries?).getD []).map fun (name, definition) => (name, mapped definition)

/-- The parameters that a document declares, with their defaults. -/
def declaredParameters (document : Value) : Entries :=
  sectionEntries (document.field "parameters") declaredValue fun definition =>
    if definition.isMapping then declaredValue definition else definition

/-- The variables that a document declares. Listed entries without a name, which are groups and
templates, are passed over. -/
def declaredVariables (document : Value) : Entries :=
  sectionEntries (document.field "variables") (·.firstField ["value", "default"]) fun definition =>
    (definition.get? (.text "value")).getD definition

/-- The entries that an item of listed parameters passes. An item with a name passes one value under
that name; any other passes its entries. -/
def passedEntries (item : Value) : Entries :=
  let trimmed : Value → Option Value
    | .text s => if Text.isBlankText s then none else some (.text (Text.strip s))
    | _ => none
  match item.get? (.text "name") with
  | some name =>
    ((trimmed name).map fun name =>
      (name, item.firstField ["value", "default", "values"])).toList
  | none =>
    ((item.entries?).getD []).filterMap fun (key, value) =>
      (trimmed key).map fun key => (key, value)

/-- The parameters that a caller passes, as a mapping or as a list. -/
def passedParameters (v : Value) : Entries :=
  match v.entries? with
  | some entries => entries
  | none => Entries.ofPairs (((v.list?).getD []).flatMap passedEntries)

end PipelineTemplate
