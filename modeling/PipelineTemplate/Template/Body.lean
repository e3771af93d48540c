import PipelineTemplate.Resources

/-!
# What a template contributes

The reference to a template in a repository, and the items that an expanded template document gives to
the place where it is referred to.
-/

namespace PipelineTemplate

/-- A template path in a repository, written with `@` between path and alias. -/
structure RepositoryReference where
  path : String
  repository : String
  deriving DecidableEq

namespace RepositoryReference

def text (r : RepositoryReference) : String := r.path ++ "@" ++ r.repository

/-- Splits a reference at the last `@`; neither side may be blank. -/
def ofText? (s : String) : Option RepositoryReference :=
  match (Text.split ['@'] s.toList).reverse with
  | name :: before@(_ :: _) =>
    let path := Text.join "@" (before.reverse.map String.ofList)
    let r : RepositoryReference := ⟨Text.strip path, String.ofList (Text.trim name)⟩
    if r.path = "" ∨ r.repository = "" then none else some r
  | _ => none

end RepositoryReference

namespace Template

/-- The keys that hold the contribution of a template, by precedence. -/
def bodyKeys : List String :=
  ["stages", "jobs", "steps", "variables", "stage", "job", "deployment", "deployments"]

/-- The first of the keys with a defined value gives its list, or a list of the value alone. -/
def bodyUnder (entries : Entries) : List String → Option Value
  | [] => none
  | key :: keys =>
    match entries.get? (.text key) with
    | none | some .undefined => bodyUnder entries keys
    | some v => some (if v.list?.isSome then v else .list [v])

/-- The list of what an expanded template contributes: a list itself, what stands under one of the body
keys, or all but the parameters. -/
def contribution (document : Value) : Value :=
  if document.list?.isSome then document
  else
    let body := ((document.entries?).getD []).erase (.text "parameters")
    (bodyUnder body bodyKeys).getD (.list (if body.isEmpty then [] else [.map body]))

end Template

end PipelineTemplate
