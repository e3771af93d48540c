import PipelineTemplate.Value.Coercion

/-!
# Resources

The repositories and other resources that a document declares, and their merge with those that a
caller supplies. Repositories are told apart by alias. A supplied one may carry criteria; it counts
only when the declared repository of the same alias meets them.
-/

namespace PipelineTemplate

/-- Whether a value is nothing, zero, or has no contents. -/
def Value.isVacant : Value → Bool
  | .null | .undefined => true
  | .bool b => !b
  | .number n => n.isZero
  | .text s => s == ""
  | .list items | .aliased items _ | .tuple items => items.isEmpty
  | .map entries | .pairs entries => entries.isEmpty
  | _ => false

/-- The first of the values that is a text with something to see in it. -/
def firstVisible : List Value → Option String
  | [] => none
  | .text s :: rest => if Text.isBlankText s then firstVisible rest else some s
  | _ :: rest => firstVisible rest

/-- Whether a text is made of digits only. -/
def Text.isNumeric (s : String) : Bool := s != "" && s.toList.all isDigit

structure Repository where
  fields : Entries
  /-- What the declared repository must have for this one to count. -/
  criteria : Entries := []

namespace Repository

def field (r : Repository) (key : String) : Value := r.fields.getD (.text key) .null

/-- The name by which templates refer to the repository. -/
def alias? (r : Repository) : Option String :=
  ["repository", "alias", "name"].findSome? fun key =>
    match r.field key with
    | .text s => if s = "" then none else some s
    | _ => none

/-- The local directory of the repository as it is written. -/
def location? (r : Repository) : Option String :=
  firstVisible (["location", "path", "directory", "localPath"].map r.field)

/-- Whether the repository has the given fields. An expected value that is null or empty is met by
all. -/
def satisfies (r : Repository) (criteria : Entries) : Bool :=
  criteria.all fun (key, expected) =>
    match expected with
    | .null | .text "" => true
    | expected => (r.fields.get? key).any (·.equal expected)

def withLocation (r : Repository) (location : String) : Repository :=
  { r with fields := r.fields.insert (.text "location") (.text location) }

/-- The keys under which criteria are written. -/
def criteriaKeys : List Value := [.text "matchCriteria", .text "__match"]

/-- Names the repository in its fields where they do not. -/
def named (name : String) (fields : Entries) : Entries :=
  if (fields.getD (.text "repository") .null).isVacant then
    fields.insert (.text "repository") (.text name)
  else fields

/-- The repository that the entries of a mapping declare, under an alias given from outside. -/
def ofEntries (name : Option String) (entries : Entries) : Repository :=
  let fields := entries.filter fun (key, _) => !criteriaKeys.any (·.equal key)
  let criteria := (criteriaKeys.findSome? fun key => (entries.get? key).bind Value.entries?).getD []
  { fields := (match name with
      | some name => named name fields
      | none => fields)
    criteria }

/-- The repositories of a section, which lists them or maps aliases to them. -/
def ofValue (section_ : Value) : List Repository :=
  match section_.entries? with
  | some entries =>
    entries.filterMap fun (key, value) =>
      value.entries?.map (ofEntries (if key.isVacant then none else some key.display))
  | none =>
    ((section_.items?).getD []).filterMap fun value => value.entries?.map (ofEntries none)

/-- The key under which a repository is merged: its alias, unless that is missing or a number. -/
def mergeKey (position : Nat) (r : Repository) : String :=
  match r.alias? with
  | some name => if Text.isNumeric name then "__index_" ++ Text.ofNat position else name
  | none => "__index_" ++ Text.ofNat position

/-- Merges one repository more. The fields update those of the repository with the same key, unless
the one merged is supplied with criteria that the other does not meet. -/
def mergeOne (supplied : Bool) (merged : List (String × Entries)) (r : Repository) :
    List (String × Entries) :=
  let key := r.mergeKey merged.length
  let fields := if r.alias? = some key then named key r.fields else r.fields
  match merged.lookup key with
  | none => merged ++ [(key, fields)]
  | some existing =>
    if supplied && !r.criteria.isEmpty && !(Repository.mk existing []).satisfies r.criteria then
      merged
    else
      merged.map fun (k, old) => if k == key then (k, old.update fields) else (k, old)

/-- The declared repositories together with the supplied ones. -/
def merge (declared supplied : List Repository) : List Repository :=
  let base := declared.foldl (mergeOne false) []
  (supplied.foldl (mergeOne true) base).map fun (_, fields) => { fields }

end Repository

structure Resources where
  repositories : List Repository := []
  /-- The other kinds of resources, as they are written. -/
  others : Entries := []

namespace Resources

def ofValue (section_ : Value) : Resources :=
  match section_.entries? with
  | none => {}
  | some entries =>
    { repositories := Repository.ofValue (entries.getD (.text "repositories") .null)
      others := entries.erase (.text "repositories") }

def merge (declared supplied : Resources) : Resources :=
  { repositories := Repository.merge declared.repositories supplied.repositories
    others := declared.others.update supplied.others }

/-- The first repository of an alias. -/
def find? (r : Resources) (name : String) : Option Repository :=
  r.repositories.find? (·.alias? = some name)

/-- The repositories that can be reached by alias, each alias once. -/
def aliases (repositories : List Repository) : List (String × Value) :=
  repositories.foldl (fun found r =>
    match r.alias? with
    | some name =>
      if Text.isNumeric name || (found.lookup name).isSome then found
      else found ++ [(name, .map r.fields)]
    | none => found) []

/-- The resources as expressions see them. -/
def toValue (r : Resources) : Value :=
  .map (r.others.insert (.text "repositories")
    (.aliased (r.repositories.map fun repository => .map repository.fields)
      (aliases r.repositories)))

end Resources

end PipelineTemplate
