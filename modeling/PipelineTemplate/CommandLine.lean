import PipelineTemplate.CommandLine.Arguments
import PipelineTemplate.CommandLine.Assignment
import PipelineTemplate.CommandLine.Message
import PipelineTemplate.Journal.Line
import PipelineTemplate.Pipeline
import PipelineTemplate.Settings

/-!
# The command line

The program takes options, the name of a command and the arguments of the command. Its only command
expands a pipeline file. What the program prints and the status that it ends with are the outcome of a
run; a misuse is told before any file is expanded.
-/

namespace PipelineTemplate

namespace CommandLine

/-- How the program ends. -/
inductive Status where
  | success | failed | misused
  deriving DecidableEq

def Status.code : Status → Nat
  | .success => 0
  | .failed => 1
  | .misused => 2

structure Outcome where
  status : Status := .success
  output : String := ""
  /-- The text beside the output. -/
  messages : String := ""
  /-- The level from which on records are shown. -/
  level : Level := .critical
  /-- The file that is written, and its text. -/
  written : Option (String × String) := none

def Outcome.line (s : String) : String := s ++ "\n"

/-! ## Options -/

inductive GlobalOption where
  | version | config | verbose | quiet | help
  deriving DecidableEq

def globalForms : List (OptionForm GlobalOption) :=
  [{ option := .version, long := "--version" },
    { option := .config, long := "--config", short := 'c', takesValue := true },
    { option := .verbose, long := "--verbose", short := 'v' },
    { option := .quiet, long := "--quiet", short := 'q' },
    { option := .help, long := "--help" }]

inductive ExpandOption where
  | output | repository | parameter | help
  deriving DecidableEq

def expandForms : List (OptionForm ExpandOption) :=
  [{ option := .output, long := "--output", short := 'o', takesValue := true },
    { option := .repository, long := "--repo", short := 'r', takesValue := true },
    { option := .parameter, long := "--param", short := 'p', takesValue := true },
    { option := .help, long := "--help" }]

/-- The lowest level to show: quiet before verbose, and verbose before the settings. -/
def levelOf (quiet : Bool) (verbosity : Nat) (settings : Settings) : Level :=
  if quiet then .error
  else match verbosity with
    | 0 => settings.verbosity.level
    | 1 => .info
    | _ => .debug

/-! ## Usage -/

def versionText : String := "pipeline-studio, version 0.1.0"

def expandName : String := "expand"

def globalUsage (program : String) : String :=
  "Usage: " ++ program ++ " [OPTIONS] [COMMAND] [ARGS]..."

def expandUsage (program : String) : String :=
  "Usage: " ++ program ++ " " ++ expandName ++ " [OPTIONS] FILE"

/-- The outcome of a misuse. -/
def misused (usage command : String) (misuse : Misuse) : Outcome :=
  { status := .misused
    messages := Outcome.line (Text.join "\n" [usage, "Try '" ++ command ++ " --help' for help.", "",
      "Error: " ++ misuse.message]) }

/-- The options of a command, one to a line. -/
def optionList {α : Type} (forms : List (OptionForm α)) : List String :=
  forms.map fun form =>
    "  " ++ ((form.short.map fun c => String.ofList ['-', c, ',', ' ']).getD "") ++ form.long

def helpText {α : Type} (usage : String) (forms : List (OptionForm α)) : String :=
  Text.join "\n" ([usage, "", "Options:"] ++ optionList forms)

/-! ## Expansion -/

/-- Why the expansion of a file ends early. -/
inductive Stop where
  | misuse (misuse : Misuse)
  | failure (failure : Failure)

/-- Splits an assignment that is given for an option. -/
def assignment (option raw : String) : Except Stop (String × String) :=
  match splitAssignment? raw with
  | some pair => .ok pair
  | none => .error (.misuse (.invalidValue option (assignmentProblem raw)))

/-- The parameters that assignments give, one after the other. -/
def parameters (entries : Entries) : List String → Except Stop Entries
  | [] => .ok entries
  | raw :: rest => do
    let (name, text) ← assignment "--param" raw
    match parameterValue text with
    | .error f => throw (.failure f)
    | .ok v => parameters (entries.insert (.text name) v) rest

/-- The paths of repositories that assignments give; of several for one repository the last one
counts. -/
def repositoryPaths (raws : List String) : Except Stop (List (String × String)) := do
  let pairs ← raws.mapM (assignment "--repo")
  return (Entries.ofPairs (pairs.map fun (name, path) => (Value.text name, Value.text path))).filterMap
    fun (name, path) => do return (← name.text?, ← path.text?)

/-- The repositories with the given paths in the place of their locations. -/
def withPaths (surroundings : Surroundings) (supplied : Entries) (paths : List (String × String)) :
    Entries :=
  paths.foldl (fun repositories (name, path) =>
    match Path.resolveConfigured surroundings (some surroundings.workingDirectory) none path with
    | some location => repositories.insert (.text name) (.map [(.text "location", .text location)])
    | none => repositories) supplied

/-- The names of entries in alphabetical order. -/
def sortedNames (entries : Entries) : Value :=
  .list (((entries.filterMap (·.1.text?)).mergeSort fun a b => !(b < a)).map .text)

/-- What stands in the way of the arguments of an expansion: first the file to write, then the file to
read, then operands too many. -/
def argumentProblem (arguments : Arguments ExpandOption) : Run (Option Misuse) := do
  let isDirectory (path : String) := Run.look path World.isDirectory
  let about (path problem : String) := "File " ++ Text.quoted path ++ problem
  if let some path := (arguments.valueOf? .output).filter (· ≠ "") then
    if ← isDirectory path then
      return some (.invalidValue "'-o' / '--output'" (about path " is a directory."))
  match arguments.operands with
  | [] => return some (.missingOperand "FILE")
  | file :: surplus =>
    if file = "" || !(← Run.look file fun w path => (w.find? path).isSome) then
      return some (.invalidValue "'FILE'" (about file " does not exist."))
    else if ← isDirectory file then
      return some (.invalidValue "'FILE'" (about file " is a directory."))
    else if surplus ≠ [] then return some (.surplusOperands surplus)
    else return none

/-- Carries out an expansion up to the text of the expanded pipeline. Its records name the file. -/
def expandedText (settings : Settings) (file : String) (parameters : Entries)
    (paths : List (String × String)) : Run String := do
  let world := (← get).world
  let directory := Path.parent (Path.absolute world.workingDirectory file)
  let workspace := settings.workspace.getD world.workingDirectory
  let surroundings := world.surroundings none
  let supplied := settings.suppliedRepositories surroundings (some workspace) (some directory)
  let repositories := withPaths surroundings supplied paths
  Run.report .info .command "expand_command" [("file", .text file),
    ("repositories", sortedNames repositories), ("parameters", sortedNames parameters)]
  Run.bound [("document", .text file)] (Pipeline.expandFile { limit := settings.limit } file (.ok
    { parameters, resources := some [(.text "repositories", .map repositories)],
      workspace := some workspace }))

/-- The outcome of a failure. One that is not reported to users ends the program silently. -/
def failed (describe : Detail → String) (file : String) (f : Failure) : Outcome :=
  let told (message : String) : Outcome := { status := .failed, messages := Outcome.line message }
  let unreadable (detail : Detail) :=
    told (failureText ("Cannot read " ++ file ++ ": " ++ describe detail) [] none)
  match f with
  | .missingFile => unreadable .missingFile
  | .directory => unreadable .directory
  | f =>
    match report? describe f with
    | some message => told message
    | none => { status := .failed }

/-- The outcome for a file that cannot be written. -/
def unwritable (path cause : String) : Outcome :=
  { status := .failed
    messages := Outcome.line (failureText ("Cannot write " ++ path ++ ": " ++ cause) [] none) }

/-- Writes the expanded pipeline to a file, or to the output if none is named. -/
def deliver (describe : Detail → String) (quiet : Bool) (output : Option String) (text : String) :
    Run Outcome := do
  match output with
  | none => return { output := text }
  | some path =>
    let blocked ← Run.look path World.isDirectory
    let placed ← Run.look path fun w path => w.write? path text
    match placed with
    | none => return unwritable path (describe (if blocked then .directory else .missingFile))
    | some world =>
      modify fun s => { s with world }
      let message := successText ("Expanded pipeline written to " ++ path)
      return { messages := if quiet then "" else Outcome.line message, written := some (path, text) }

/-- Carries out a run; the outcome of a failure is given by a handler. -/
def settled (run : Run Outcome) (handle : Failure → Outcome) : Run Outcome :=
  tryCatch run fun f => return handle f

/-- The command that expands a file. -/
def expandCommand (program : String) (describe : Detail → String) (settings : Settings) (quiet : Bool)
    (raw : List String) : Run Outcome := do
  let misused := misused (expandUsage program) (program ++ " " ++ expandName)
  match Arguments.read expandForms true raw with
  | .error misuse => return misused misuse
  | .ok arguments =>
    if arguments.options.any (·.1 = .help) then
      return { output := Outcome.line (helpText (expandUsage program) expandForms) }
    if let some misuse ← argumentProblem arguments then return misused misuse
    let read : Except Stop (Entries × List (String × String)) := do
      return (← parameters [] (arguments.valuesOf .parameter),
        ← repositoryPaths (arguments.valuesOf .repository))
    match read with
    | .error (.misuse misuse) => return misused misuse
    | .error (.failure _) => return { status := .failed }
    | .ok (parameters, paths) =>
      let file := Path.tidy (arguments.operands.headD "")
      settled (do
        let text ← expandedText settings file parameters paths
        deliver describe quiet ((arguments.valueOf? .output).map Path.tidy) text) (failed describe file)

/-! ## The program -/

/-- What the options before the command ask for at once: the version or the help, whichever is asked for
first. -/
def immediate? (program : String) (arguments : Arguments GlobalOption) : Option Outcome :=
  arguments.options.findSome? fun (option, _) =>
    match option with
    | .version => some { output := Outcome.line versionText }
    | .help => some { output := Outcome.line (helpText (globalUsage program) globalForms) }
    | _ => none

/-- Loads the settings and goes on with them. Records made before the level is known are not shown. -/
def withSettings (describe : Detail → String) (arguments : Arguments GlobalOption)
    (command : Settings → Bool → Run Outcome) : Run Outcome := do
  let file := (arguments.valueOf? .config).filter (· ≠ "")
  let loaded ← tryCatch (Except.ok <$> Settings.load file) fun f => return .error f
  match loaded with
  | .error f =>
    return match report? describe f with
      | some message => { status := .failed, messages := Outcome.line message }
      | none => { status := .failed }
  | .ok settings =>
    let quiet := !(arguments.valuesOf .quiet).isEmpty
    let level := levelOf quiet (arguments.valuesOf .verbose).length settings
    modify fun s => { s with journal := [] }
    let outcome ← settled (command settings quiet) fun _ => { status := .failed }
    return { outcome with level }

/-- Runs the program under a name with its arguments. Where the first operand names no command, the
operands are read once more as options, and what is wrong with them is told first. -/
def run (program : String) (describe : Detail → String) (raw : List String) : Run Outcome := do
  let misused := misused (globalUsage program) program
  match Arguments.read globalForms false raw with
  | .error misuse => return misused misuse
  | .ok arguments =>
    match immediate? program arguments, arguments.operands with
    | some outcome, _ => return outcome
    | none, [] =>
      withSettings describe arguments fun _ _ =>
        return { output := Outcome.line (helpText (globalUsage program) globalForms) }
    | none, name :: rest =>
      if name = expandName then
        withSettings describe arguments fun settings quiet =>
          expandCommand program describe settings quiet rest
      else
        match Arguments.read globalForms false (name :: rest) with
        | .error misuse => return misused misuse
        | .ok again =>
          return (immediate? program again).getD
            (misused (.unknownCommand name (Text.resembling [expandName] name)))

end CommandLine

end PipelineTemplate
