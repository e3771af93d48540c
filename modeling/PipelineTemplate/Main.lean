import PipelineTemplate.CommandLine

/-!
# The program

Runs the command line on the files of the disk. A run looks only at what is known of the disk; whatever
it asked for and was not known is read in, and the run is made again, until nothing is missing.
-/

namespace PipelineTemplate.Program

/-- The routes that following a path passes through, the route of the path itself included. -/
def routesOf (workingDirectory path : String) : List Route :=
  let absolute := if Path.isAbsolute path then path else Path.join workingDirectory path
  let steps := Path.components absolute
  (List.range (steps.length + 1)).map fun n => ((steps.take n).foldl (fun route component =>
    if component = [] ∨ component = ['.'] then route
    else if component = ['.', '.'] then route.dropLast
    else route ++ [component]) [])

/-- The variables in a block of texts that end with a null character. -/
def variablesOf (block : List Char) : Environment :=
  (Text.split ['\x00'] block).filterMap fun entry =>
    (Text.cut? ['='] entry).map fun (name, value) => (String.ofList name, String.ofList value)

/-- What tells of a lower-level cause. -/
def describe : Detail → String
  | .yaml ⟨_, some line⟩ => "the text is not well formed near line " ++ Text.ofNat line
  | .yaml ⟨_, none⟩ => "the text is not well formed"
  | .encoding => "the bytes are not UTF-8"
  | .missingFile => "no such file or directory"
  | .directory => "is a directory"

/-- What stands on the disk under a route. -/
def probe (route : Route) : IO (Option DiskEntry) := do
  let path := "/" ++ Text.join "/" (route.map String.ofList)
  try
    return some (.file (← IO.FS.readBinFile path))
  catch
    | .inappropriateType .. => return some .directory
    | _ => return none

/-- Adds what stands under routes to the known part of the disk. -/
def learn (disk : Disk) : List Route → IO Disk
  | [] => return disk
  | route :: routes => do
    match ← probe route with
    | some entry => learn (disk.put route entry) routes
    | none => learn disk routes

/-- Runs the program until it asks for no route that was not probed before. -/
partial def settle (arguments : List String) (probed : List Route) (world : World) :
    IO (Except Failure CommandLine.Outcome × Session) := do
  let (result, after) := (CommandLine.run "pipeline-studio" describe arguments).start { world }
  let asked := (after.visited.flatMap (routesOf world.workingDirectory)).eraseDups
  match asked.filter fun route => !probed.contains route with
  | [] => return (result, after)
  | fresh =>
    let disk ← learn world.disk fresh
    settle arguments (fresh ++ probed) { world with disk }

/-- Writes the file of an outcome. -/
def write (outcome : CommandLine.Outcome) : IO CommandLine.Outcome := do
  match outcome.written with
  | none => return outcome
  | some (path, text) =>
    try
      IO.FS.writeFile path text
      return outcome
    catch problem => return CommandLine.unwritable path problem.toString

end PipelineTemplate.Program

open PipelineTemplate in
/-- Runs the program and ends with the code of its status. -/
def main (arguments : List String) : IO UInt32 := do
  let block ← IO.FS.readBinFile "/proc/self/environ"
  let environment := Program.variablesOf (((String.fromUTF8? block).getD "").toList)
  let workingDirectory := (← IO.currentDir).toString
  let (result, after) ← Program.settle arguments [] { environment, workingDirectory }
  match result with
  | .error _ => return 1
  | .ok outcome =>
    let records := Journal.shown outcome.level.severity after.journal.reverse
    for line in Journal.lines (Journal.wantsJson environment) records do IO.eprintln line
    let outcome ← Program.write outcome
    IO.print outcome.output
    IO.eprint outcome.messages
    return outcome.status.code.toUInt32
