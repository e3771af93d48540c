import PipelineTemplate.Expansion
import PipelineTemplate.Yaml.Outline

/-!
# Pipelines

Expanding a whole pipeline, given as text or as a file, together with what a caller supplies for it.
-/

namespace PipelineTemplate

/-- What a caller supplies for one expansion. -/
structure Options where
  fileName : Option String := none
  directory : Option String := none
  repository : Option String := none
  parameters : Entries := []
  variableValues : Entries := []
  resources : Option Entries := none
  locations : List (String × String) := []
  locals : Entries := []
  workspace : Option String := none

namespace Options

/-- A reader of one option: what it makes of the value, or the places in it that do not fit. -/
abbrev Reader (α : Type) := Option Value → Except (List (List String)) α

/-- Options may be given under two names, of which the first has precedence; what does not fit is
reported under the name in use. -/
def read {α : Type} (entries : Entries) (names : List String) (reader : Reader α) :
    Except (List (List String)) α :=
  match names.findSome? fun name => (entries.get? (.text name)).map (name, ·) with
  | none => reader none
  | some (name, v) => (reader (some v)).mapError fun places => places.map (name :: ·)

/-- A text, or null. -/
def text : Reader (Option String)
  | none | some .null => .ok none
  | some (.text s) => .ok (some s)
  | some _ => .error [[]]

/-- The name of a key in a report. -/
def keyName : Value → String
  | .text s => s
  | .bool b => if b then "1" else "0"
  | v => v.literal

/-- The places of the keys that are no texts. -/
def badKeys (entries : Entries) : List (List String) :=
  entries.filterMap fun (key, _) => if key.isText then none else some [keyName key, "[key]"]

/-- A mapping from texts. -/
def mapping : Reader Entries
  | none => .ok []
  | some v =>
    match v.entries? with
    | none => .error [[]]
    | some entries => if badKeys entries = [] then .ok entries else .error (badKeys entries)

/-- A mapping from texts, or null. -/
def mapping? : Reader (Option Entries)
  | none | some .null => .ok none
  | v => some <$> mapping v

/-- A mapping from texts to texts. -/
def texts : Reader (List (String × String))
  | none => .ok []
  | some v =>
    match v.entries? with
    | none => .error [[]]
    | some entries =>
      let bad := badKeys entries ++ entries.filterMap fun (key, value) =>
        if value.isText then none else some [keyName key]
      if bad = [] then
        .ok (entries.filterMap fun (key, value) => do return (← key.text?, ← value.text?))
      else .error bad

/-- The places that do not fit. -/
def places {α : Type} : Except (List (List String)) α → List (List String)
  | .ok _ => []
  | .error places => places

/-- The options that the entries of a mapping give; all places that do not fit are reported. -/
def ofEntries (entries : Entries) : Except Failure Options :=
  let fileName := read entries ["fileName", "file_name"] text
  let directory := read entries ["baseDir", "base_dir"] text
  let repository := read entries ["repositoryBaseDir", "repository_base_dir"] text
  let parameters := read entries ["parameters"] mapping
  let variableValues := read entries ["variables"] mapping
  let resources := read entries ["resources"] mapping?
  let locations := read entries ["resourceLocations", "resource_locations"] texts
  let locals := read entries ["locals"] mapping
  let workspace := read entries ["workspaceFolder", "workspace_folder"] text
  let options : Except (List (List String)) Options := do
    return ⟨← fileName, ← directory, ← repository, ← parameters, ← variableValues, ← resources,
      ← locations, ← locals, ← workspace⟩
  match options with
  | .ok options => .ok options
  | .error _ =>
    let bad := places fileName ++ places directory ++ places repository ++ places parameters ++
      places variableValues ++ places resources ++ places locations ++ places locals ++ places workspace
    .error (.invalidOptions ((bad.map (Text.join ".")).mergeSort fun a b => !(b < a)))

end Options

namespace Pipeline

/-- A path that a caller gives; an empty one is none. -/
def given (path : Option String) : Option String := path.filter (· ≠ "")

/-- The directory that the paths in a whole document start from: the one that the caller gives, that of
the file, or the working directory. -/
def rootDirectory (workingDirectory : String) (options : Options) : String :=
  let ofFile := (given options.fileName).map Path.parent
  Path.absolute workingDirectory
    (((given options.directory).or (given ofFile)).getD workingDirectory)

/-- The context of a whole document. What the caller supplies hides what the document declares. -/
def rootContext (workingDirectory : String) (document : Value) (options : Options) : Context :=
  let directory := rootDirectory workingDirectory options
  { parameters := (declaredParameters document).update options.parameters
    variableValues := (declaredVariables document).update options.variableValues
    resources := (Resources.ofValue (document.field "resources")).merge
      (Resources.ofValue (options.resources.elim .null .map))
    locals := options.locals
    directory
    repository := some (((given options.repository).map (Path.absolute workingDirectory)).getD directory)
    locations := options.locations
    workspace := options.workspace }

/-- The document in a text; an empty text is an empty mapping. -/
def document (text : String) (options : Options) : Except Failure Value := do
  match ← Yaml.load text options.fileName with
  | .null => return .map []
  | v => return v

/-- The root context of the document in a text. -/
def contextOf (text : String) (options : Options) : Run Context := do
  let document ← document text options
  return rootContext (← get).world.workingDirectory document options

/-- Expands the pipeline in a text. A keeper expands the parameters of references that are kept. -/
def expandWith (engine : Engine) (keep : Expansion.Keeper) (text : String) (options : Options) :
    Run Value := do
  let document ← document text options
  let ctx := rootContext (← get).world.workingDirectory document options
  let file : Value := options.fileName.elim .null .text
  Run.pass (.entered ctx)
  Run.report .info .engine "expansion_started" [("file", file), ("base_dir", .text ctx.directory)]
  let result ← Expansion.expandValue engine keep .resolving ctx document
  Run.report .info .engine "expansion_finished" [("file", file)]
  return result

/-- Expands the pipeline in a text. -/
def expand (engine : Engine) (text : String) (options : Options) : Run Value :=
  expandWith engine (Expansion.keepWithin engine engine.nesting) text options

/-- Expands the pipeline in a text into the text of a document. -/
def expandText (engine : Engine) (text : String) (options : Options) : Run String := do
  match (← expand engine text options).toYaml? with
  | some s => return s
  | none => throw .notRepresentable

/-- The text of a pipeline file. -/
def readFile (path : String) : Run String := do
  match ← Run.look path World.readText with
  | .ok text => return text
  | .error .missing => throw .missingFile
  | .error .directory => throw .directory
  | .error .encoding => throw (.malformedDocument .undecodable .encoding (some path) none)

/-- Expands the pipeline in a file. Its templates are looked for next to it. -/
def expandFile (engine : Engine) (path : String) (supplied : Except Failure Options) :
    Run String := do
  let path ← Template.absolute path
  let text ← readFile path
  let options ← supplied
  expandText engine text { options with fileName := some path, directory := some (Path.parent path) }

end Pipeline

end PipelineTemplate
