import PipelineTemplate.Path
import PipelineTemplate.Text.Blank

/-!
# Variables in paths

A configured path may begin with the home directory, written `~`, and may name the workspace and
environment variables in braces after a dollar sign.
-/

namespace PipelineTemplate

/-- The environment variables. -/
abbrev Environment := List (String × String)

/-- The surroundings that configured paths depend on. -/
structure Surroundings where
  environment : Environment
  home : String
  workingDirectory : String

namespace Path

/-- The home directory that the environment names. -/
def homeOf (environment : Environment) : String :=
  let named := ((environment.lookup "HOME").getD "").toList
  let trimmed := (named.reverse.dropWhile (· = '/')).reverse
  if trimmed = [] then "/" else tidy (String.ofList trimmed)

/-- Replaces a `~` that stands at the beginning, alone or before a separator. -/
def expandHome (home path : String) : String :=
  match path.toList with
  | '~' :: rest =>
    let leads := match rest with
      | [] | '/' :: _ | '\\' :: _ => true
      | rest => rest = ['\n']
    if leads then
      match rest.dropWhile (fun c => c = '/' || c = '\\') with
      | [] => home
      | remainder => tidy (join home (String.ofList remainder))
    else path
  | _ => path

/-- Replaces each opening with the text up to the next closing brace; where nothing is given for the
text in between, all stays as it is. `skip` counts the characters of a replaced part that are still to
be passed over. -/
def replaceBraced (opening : List Char) (value? : List Char → Option (List Char)) :
    Nat → List Char → List Char
  | _, [] => []
  | skip + 1, _ :: cs => replaceBraced opening value? skip cs
  | 0, c :: cs =>
    match Text.dropPrefix? opening (c :: cs) with
    | none => c :: replaceBraced opening value? 0 cs
    | some rest =>
      let name := rest.takeWhile (· ≠ '\x7d')
      if name = [] ∨ name.length = rest.length then c :: replaceBraced opening value? 0 cs
      else
        let length := opening.length + name.length + 1
        ((value? name).getD ((c :: cs).take length)) ++
          replaceBraced opening value? (length - 1) cs

/-- Replaces the home directory, the workspace, variables marked as such, which are empty when unset,
and at last plain variables, which stay when unset. -/
def substituteVariables (surroundings : Surroundings) (workspace : Option String)
    (path : String) : String :=
  let workspace := (workspace.getD "").toList
  let value? (name : List Char) : Option (List Char) :=
    (surroundings.environment.lookup (String.ofList name)).map String.toList
  let expanded := (expandHome surroundings.home path).toList
  let placed := Text.replace "$\x7bworkspaceFolder\x7d".toList workspace expanded
  let marked := replaceBraced "$\x7benv:".toList
    (fun name => some ((value? name).getD [])) 0 placed
  let plain := replaceBraced "$\x7b".toList
    (fun name => if name = "workspaceFolder".toList then some workspace else value? name) 0 marked
  String.ofList plain

/-- The normalized absolute path of a configured one. It is taken from the workspace, the directory of
the document or the working directory, whichever is known first. -/
def resolveConfigured (surroundings : Surroundings) (workspace document : Option String)
    (raw : String) : Option String :=
  let candidate := Text.strip raw
  if candidate = "" then none
  else
    let path := substituteVariables surroundings workspace candidate
    if isAbsolute path then some (normalize path)
    else
      let given (directory : Option String) := directory.filter (· ≠ "")
      let anchor := ((given workspace).or (given document)).getD surroundings.workingDirectory
      some (normalize (join (absolute surroundings.workingDirectory anchor) path))

end Path

end PipelineTemplate
