import PipelineTemplate.Number.Whole
import PipelineTemplate.Session
import PipelineTemplate.Value.JsonReading
import PipelineTemplate.Resources
import PipelineTemplate.Yaml.Construction

/-!
# Settings

The settings of the program come from variables of the environment, from the file of the project and
from the file of the user, in this order of precedence. Mappings that stand under one name in several
of them are merged. The first setting that is not valid is reported.
-/

namespace PipelineTemplate

inductive Verbosity where
  | error | warning | info | debug
  deriving DecidableEq

def Verbosity.level : Verbosity → Level
  | .error => .error
  | .warning => .warning
  | .info => .info
  | .debug => .debug

/-- The local directory of a repository, and what a declared repository must have for it to count. -/
structure RepositoryLocation where
  repository : String
  path : Option String := none
  location : Option String := none
  name : Option String := none
  endpoint : Option String := none
  ref : Option String := none
  type : Option String := none

namespace RepositoryLocation

/-- The path as written, under either name. -/
def rawPath (l : RepositoryLocation) : String :=
  ([l.path, l.location].findSome? fun path => path.filter fun s => !Text.isBlankText s).getD ""

/-- What a declared repository must have. -/
def criteria (l : RepositoryLocation) : Entries :=
  [("repository", some l.repository), ("name", l.name), ("endpoint", l.endpoint), ("ref", l.ref),
    ("type", l.type)].filterMap fun (key, value) => do
    let value ← value
    if Text.isBlankText value then none else some (.text key, .text (Text.strip value))

end RepositoryLocation

structure Settings where
  locations : List RepositoryLocation := []
  /-- How many templates may be nested. -/
  limit : Int := 100
  workspace : Option String := none
  verbosity : Verbosity := .warning

namespace Settings

/-! ## Validity -/

/-- What is wrong with a setting, where it is, and the value there. -/
structure Problem where
  field : List String
  message : String
  value : Value

abbrev Check (α : Type) := Except Problem α

def Problem.failure (p : Problem) : Failure :=
  .invalidSetting p.message (Text.join "." p.field) p.value

/-- The same problem, seen from further out. -/
def under {α : Type} (name : String) (c : Check α) : Check α :=
  c.mapError fun p => { p with field := name :: p.field }

def wrong {α : Type} (message : String) (v : Value) : Check α := .error ⟨[], message, v⟩

/-- The blanks that a numeral may have around it. -/
def isNumeralBlank (c : Char) : Bool := Text.isBlank c && !(28 ≤ c.toNat && c.toNat ≤ 31)

/-- The whole number that a text spells: digits with single low lines between them, perhaps with a point
and zeros behind. -/
def wholeOfText? (s : String) : Option Int :=
  let trim (cs : List Char) := ((cs.dropWhile isNumeralBlank).reverse.dropWhile isNumeralBlank).reverse
  let magnitude (cs : List Char) : Option Nat :=
    let (digits, rest) := cs.span (· ≠ '.')
    if rest.all (fun c => c = '.' || c = '0') && rest.count '.' ≤ 1 &&
        digits.all (fun c => Text.isPlainDigit c || c = '_') then
      Number.groupedNumeral? 10 0 digits
    else none
  match trim s.toList with
  | '-' :: cs => (magnitude cs).map fun n => -(n : Int)
  | '+' :: cs => (magnitude cs).map fun n => (n : Int)
  | cs => (magnitude cs).map fun n => (n : Int)

/-- A whole number: a number without a fraction, a truth value as one or zero, or a numeral. -/
def whole (v : Value) : Check Int :=
  let unparsed := "Input should be a valid integer, unable to parse string as an integer"
  match v with
  | .number (.int n) => .ok n
  | .bool b => .ok (if b then 1 else 0)
  | .number (.float x) =>
    match x.toRat?, x.toInt? with
    | none, _ => wrong "Input should be a finite number" v
    | _, none => wrong "Input should be a valid integer, got a number with a fractional part" v
    | _, some n => if n.natAbs < Number.powerOfTwo 63 then .ok n else wrong unparsed v
  | .text s => match wholeOfText? s with
    | some n => .ok n
    | none => wrong unparsed v
  | _ => wrong "Input should be a valid integer" v

/-- A whole number within bounds. -/
def wholeWithin (least greatest : Int) (v : Value) : Check Int := do
  let n ← whole v
  if n < least then wrong ("Input should be greater than or equal to " ++ Text.ofInt least) v
  else if greatest < n then wrong ("Input should be less than or equal to " ++ Text.ofInt greatest) v
  else return n

def text (v : Value) : Check String :=
  match v with
  | .text s => .ok s
  | v => wrong "Input should be a valid string" v

/-- The entry of a name in a mapping, checked if it is there and not null. -/
def optional {α : Type} (check : Value → Check α) (v : Value) (name : String) : Check (Option α) :=
  match v.get? (.text name) with
  | none | some .null => .ok none
  | some entry => under name (some <$> check entry)

def visibleText (v : Value) : Check String := do
  let s ← text v
  if s = "" then wrong "String should have at least 1 character" v else return s

/-- One location of a repository. It names the repository and a path. -/
def location (v : Value) : Check RepositoryLocation := do
  if !v.isMapping then
    wrong "Input should be a valid dictionary or instance of ResourceLocationConfig" v
  let repository ← under "repository" (match v.get? (.text "repository") with
    | none => wrong "Field required" v
    | some name => visibleText name)
  let l : RepositoryLocation :=
    { repository
      path := ← optional text v "path"
      location := ← optional text v "location"
      name := ← optional text v "name"
      endpoint := ← optional text v "endpoint"
      ref := ← optional text v "ref"
      type := ← optional text v "type" }
  if l.rawPath = "" then
    wrong ("Value error, resource location for '" ++ repository ++ "' needs a path") v
  else return l

/-- The items of a list, each checked at its position. -/
def checkItems {α : Type} (check : Value → Check α) (position : Nat) :
    List Value → Check (List α)
  | [] => .ok []
  | v :: vs => do
    let a ← under (Text.ofNat position) (check v)
    return a :: (← checkItems check (position + 1) vs)

def locationList (v : Value) : Check (List RepositoryLocation) :=
  match v with
  | .list items => checkItems location 0 items
  | v => wrong "Input should be a valid list" v

def workspacePath (v : Value) : Check String :=
  match v with
  | .text s => .ok (Path.tidy s)
  | v => wrong "Input is not a valid path for <class 'pathlib.Path'>" v

def verbosityOf (v : Value) : Check Verbosity :=
  match v with
  | .text "error" => .ok .error
  | .text "warning" => .ok .warning
  | .text "info" => .ok .info
  | .text "debug" => .ok .debug
  | v => wrong "Input should be 'error', 'warning', 'info' or 'debug'" v

/-- The value of a setting, or its default where none is given; null counts as given. -/
def given {α : Type} (entries : Entries) (name : String) (default : α) (check : Value → Check α) :
    Check α :=
  match entries.get? (.text name) with
  | none => .ok default
  | some v => under name (check v)

/-- The settings that the entries of a mapping give. -/
def ofEntries (entries : Entries) : Check Settings := do
  let locations ← given entries "resource_locations" [] locationList
  let limit ← given entries "max_template_depth" 100 (wholeWithin 1 10000)
  let workspace ← given entries "workspace_folder" none fun v =>
    if v.isNull then .ok none else some <$> workspacePath v
  let verbosity ← given entries "verbosity" .warning verbosityOf
  return ⟨locations, limit, workspace, verbosity⟩

/-! ## Sources -/

mutual

/-- Entries below others: those of the same name are hidden, unless both are mappings, which are merged. -/
def below (entries : Entries) : List (Value × Value) → Entries
  | [] => entries
  | (key, v) :: above => below (entries.insert key (mergeValue (entries.get? key) v)) above

def mergeValue (lower : Option Value) : Value → Value
  | .map upper =>
    match lower with
    | some (.map lower) => .map (below lower upper)
    | _ => .map upper
  | v => v

end

/-- The variables of the environment, their names in small letters. -/
def smallNames (environment : Environment) : Environment :=
  environment.map fun (name, value) => (Text.lower name, value)

/-- The start of the names of variables that give settings. -/
def variableStart : String := "pipeline_studio_"

/-- The value of a setting's variable; of several spellings of its name the last one counts. -/
def ofVariable? (environment : Environment) (name : String) : Option String :=
  (smallNames environment).reverse.lookup (variableStart ++ name)

/-- Puts a value under a path of keys into nested mappings. -/
def insertNested (entries : Entries) (value : Value) : List String → Entries
  | [] => entries
  | [key] => entries.insert (.text key) value
  | key :: keys =>
    match entries.get? (.text key) with
    | none => entries.insert (.text key) (.map (insertNested [] value keys))
    | some (.map inner) => entries.insert (.text key) (.map (insertNested inner value keys))
    | some _ => entries

/-- The parts of a setting that variables of their own give, named with two low lines between the
keys. -/
def nestedVariables (environment : Environment) (name : String) : Entries :=
  (smallNames environment).foldl (fun entries (spelling, value) =>
    match Text.dropPrefix? (variableStart ++ name ++ "__").toList spelling.toList with
    | some keys =>
      insertNested entries (.text value) ((Text.split ['_', '_'] keys).map String.ofList)
    | none => entries) []

/-- The locations of repositories that the environment gives; null gives none. -/
def environmentLocations (environment : Environment) : Except Failure (Option Value) :=
  let nested := nestedVariables environment "resource_locations"
  match ofVariable? environment "resource_locations" with
  | none => .ok (if nested = [] then none else some (.map nested))
  | some s =>
    match JsonText.read? s with
    | none => .error .undecodableSetting
    | some .null => .ok none
    | some (.map entries) => .ok (some (.map (below entries nested)))
    | some v => .ok (some v)

/-- The settings that the environment gives. -/
def ofEnvironment (environment : Environment) : Except Failure Entries := do
  let locations ← environmentLocations environment
  let others := ["max_template_depth", "workspace_folder", "verbosity"].filterMap fun name =>
    (ofVariable? environment name).map fun value => (Value.text name, Value.text value)
  return (locations.map fun v => (Value.text "resource_locations", v)).toList ++ others

/-- What kind of value a document is. -/
def kindName : Value → String
  | .bool _ => "bool"
  | .number (.int _) => "int"
  | .number (.float _) => "float"
  | .text _ => "str"
  | .date _ => "date"
  | .time _ => "datetime"
  | _ => "list"

/-- The entries of a settings file; a file that is missing or empty has none. -/
def ofFile (path : String) : Run Entries := do
  match ← Run.look path World.readText with
  | .error .missing => return []
  | .error .directory => throw .directory
  | .error .encoding => throw .undecodableSettings
  | .ok content =>
    match Yaml.readOlder content.toList with
    | .error (.yaml e) => throw (.malformedSettings path (.yaml e))
    | .error fault => throw fault.failure
    | .ok .null =>
      Run.report .warning .settings "config_file_empty" [("path", .text path)]
      return []
    | .ok (.map entries) => return entries
    | .ok v => throw (.settingsNoMapping path (kindName v))

/-- The name of the settings file of a project. -/
def projectFile : String := "pipeline-studio.yaml"

/-- The path of the settings file of the user. -/
def userFile (home : String) : String :=
  Path.tidy (Path.join home ".config/pipeline-studio/config.yaml")

/-- Loads the settings. A file may be named for the project. -/
def load (file : Option String) : Run Settings := do
  let world := (← get).world
  let path := (file.map Path.tidy).getD (Path.tidy (Path.join world.workingDirectory projectFile))
  if !(← Run.look path fun w path => (w.find? path).isSome) then
    Run.report .debug .settings "project_config_missing" [("path", .text path)]
  let project ← ofFile path
  let user ← ofFile (userFile world.homeDirectory)
  let environment ← ofEnvironment world.environment
  let entries := below user (below project environment)
  if entries.any fun (key, _) => !key.isText then throw .namelessSetting
  match ofEntries entries with
  | .ok settings => return settings
  | .error problem => throw problem.failure

/-! ## Repositories -/

/-- The resources that the locations of repositories supply. A later location of the same repository
replaces an earlier one. -/
def suppliedRepositories (settings : Settings) (surroundings : Surroundings)
    (workspace document : Option String) : Entries :=
  Entries.ofPairs (settings.locations.filterMap fun l => do
    let path ← Path.resolveConfigured surroundings workspace document l.rawPath
    let criteria := l.criteria
    return (.text (Text.strip l.repository),
      .map ((.text "location", .text path) ::
        (if criteria.isEmpty then [] else [(.text "matchCriteria", .map criteria)]))))

end Settings

end PipelineTemplate
