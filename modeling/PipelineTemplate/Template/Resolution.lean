import PipelineTemplate.Expression.Embedded
import PipelineTemplate.Template.Body
import PipelineTemplate.Yaml.Protected

/-!
# Where templates are

A template is named by a path, which is looked for under the root of the repository and then under the
directory of the document, or by a path and the alias of a repository. The location of a repository is
found in its declaration or, if that has none, among the locations given by the caller.
-/

namespace PipelineTemplate

/-- The limits and the surroundings of expansion. -/
structure Engine where
  /-- How many templates may be nested. -/
  limit : Int := 100
  /-- How many references may be nested in the parameters of each other that are kept. -/
  nesting : Nat := 200
  /-- The environment variables for the locations of repositories; those of the process if none are
  given. -/
  environment : Option Environment := none

namespace Template

/-- A template that has been found: its reference as written, its file and the root of its
repository. -/
structure Located where
  reference : String
  path : String
  repository : Option String := none

/-- The repository of an alias. -/
def repositoryOf (ctx : Context) (name : String) : Option Repository :=
  let external := (ctx.locations.lookup name).filter (· ≠ "")
  match ctx.resources.find? name, external with
  | some r, some location => if r.location?.isSome then some r else some (r.withLocation location)
  | some r, none => some r
  | none, some location =>
    some { fields := [(.text "repository", .text name), (.text "location", .text location)] }
  | none, none => none

/-- The location of a repository with its expressions and variables replaced. One without expressions is
remembered, for its text and the workspace. -/
def locationOf (engine : Engine) (ctx : Context) (r : Repository) : Run (Option String) := do
  match r.location? with
  | none => return none
  | some location =>
    let key := (location, ctx.workspace)
    let constant := !Text.hasInfix Embedded.opening location.toList
    let session ← get
    match if constant then session.locations.lookup key else none with
    | some known => return some known
    | none =>
      let written := Text.strip (← ctx.substitute location)
      if written = "" then return none
      else
        let surroundings := (← get).world.surroundings engine.environment
        let path := Path.substituteVariables surroundings ctx.workspace written
        modify fun s => if constant then { s with locations := (key, path) :: s.locations } else s
        return some path

/-- The directory that a location stands for: that of the file if it names one. -/
def directoryOf (ctx : Context) (location : String) : Run String := do
  let path := Path.normalize (Path.join ctx.directory location)
  if ← Run.look path World.isFile then return Path.parent path else return path

/-- The absolute form of a path. -/
def absolute (path : String) : Run String := return Path.absolute (← get).world.workingDirectory path

/-- The first of the paths that is a file. -/
def firstFile : List String → Run (Option String)
  | [] => return none
  | path :: rest => do
    let path ← absolute path
    if ← Run.look path World.isFile then return some path else firstFile rest

/-- Looks for a template under the root of a repository and under a directory. A slash in front means
the root as well. -/
def findWithin (template : String) (directory repository : Option String) : Run (Option String) :=
  let parts := (Path.components (String.ofList (Text.replace ['\\'] ['/'] template.toList))).filter
    (· ≠ [])
  let given (base : Option String) : Option String :=
    (base.filter (· ≠ "")).map Path.normalize
  let bases := match given repository, given directory with
    | some r, some d => if r = d then [r] else [r, d]
    | r, d => r.toList ++ d.toList
  if parts = [] then return none
  else firstFile (bases.map fun base => Path.join base (Path.ofComponents "" parts))

/-- The root of the repository that a reference names. -/
def repositoryRoot (engine : Engine) (ctx : Context) (r : RepositoryReference) (template : String) :
    Run String := do
  if r.repository = "self" then return (ctx.repository.filter (· ≠ "")).getD ctx.directory
  else
    match repositoryOf ctx r.repository with
    | none => throw (.unknownRepository r.repository template)
    | some repository =>
      match (← locationOf engine ctx repository).filter (· ≠ "") with
      | none => throw (.repositoryWithoutLocation r.repository template)
      | some location =>
        let root ← directoryOf ctx location
        Run.report .debug .resolution "repository_resolved"
          [("alias", .text r.repository), ("location", .text root)]
        return root

/-- The path that was found, or else another one in its absolute form. -/
def foundOr (path : String) : Option String → Run String
  | some found => return found
  | none => absolute path

/-- Where a template is, or would be if it were there. -/
def place (engine : Engine) (ctx : Context) (template : String) : Run Located :=
  match RepositoryReference.ofText? template with
  | none => do
    let found ← findWithin template (some ctx.directory) ctx.repository
    let path ← foundOr (Path.join ctx.directory template) found
    return ⟨template, path, ctx.repository⟩
  | some r => do
    let root ← repositoryRoot engine ctx r template
    let found ← findWithin r.path (some ctx.directory) (some root)
    let relative := r.path.toList.dropWhile fun c => c = '/' || c = '\\'
    let path ← foundOr (Path.join root (String.ofList relative)) found
    return ⟨r.text, path, some root⟩

/-- Finds the file of a template. -/
def locate (engine : Engine) (ctx : Context) (template : String) : Run Located := do
  let located ← place engine ctx template
  if ← Run.look located.path World.isFile then
    Run.report .debug .resolution "template_resolved"
      [("template", .text located.reference), ("path", .text located.path)]
    return located
  else throw (.templateNotFound located.reference located.path)

/-- A template may not be expanded inside itself. -/
def demandNew (ctx : Context) (t : Located) : Except Failure Unit :=
  if t.path ∈ ctx.templates then .error (.recursiveTemplate t.reference ctx.templates) else .ok ()

/-- The failure of a template that is nested too deep. -/
def tooDeep (engine : Engine) (ctx : Context) (t : Located) : Failure :=
  .templatesTooDeep t.reference ctx.templates engine.limit

/-- Whether a template may be expanded at a point. -/
def check (engine : Engine) (ctx : Context) (t : Located) : Except Failure Unit := do
  demandNew ctx t
  if engine.limit ≤ ctx.depth then .error (tooDeep engine ctx t) else return ()

theorem check_eq_ok {engine : Engine} {ctx : Context} {t : Located}
    (h : check engine ctx t = .ok ()) : t.path ∉ ctx.templates ∧ (ctx.depth : Int) < engine.limit := by
  by_cases hm : t.path ∈ ctx.templates
  · simp [check, demandNew, hm, bind, Except.bind] at h
  · by_cases hd : engine.limit ≤ ctx.depth
    · simp [check, demandNew, hm, hd, bind, Except.bind] at h
    · exact ⟨hm, Int.not_le.1 hd⟩

/-- How many more templates may be nested. -/
def levelsLeft (engine : Engine) (ctx : Context) : Nat := (engine.limit - ctx.depth).toNat

theorem levelsLeft_lt {engine : Engine} {ctx inner : Context} (h : (ctx.depth : Int) < engine.limit)
    (hi : inner.depth = ctx.depth + 1) : levelsLeft engine inner < levelsLeft engine ctx := by
  unfold levelsLeft
  omega

def ReadError.detail : ReadError → Detail
  | .missing => .missingFile
  | .directory => .directory
  | .encoding => .encoding

/-- The document in the content of the file of a template; that of an empty file is an empty mapping. -/
def Located.read (t : Located) : Except ReadError String → Except Failure Value
  | .error e => .error (.unreadableTemplate t.reference (ReadError.detail e))
  | .ok text =>
    match Yaml.read text with
    | .ok .null => .ok (.map [])
    | .ok v => .ok v
    | .error (.yaml e) =>
      .error (.malformedDocument (.template t.reference) (.yaml e) (some t.path) e.line)
    | .error fault => .error fault.failure

/-- The document in the file of a template. -/
def document (t : Located) : Run Value := do
  let content ← Run.look t.path World.readText
  ExceptT.mk (pure (t.read content))

end Template

end PipelineTemplate
