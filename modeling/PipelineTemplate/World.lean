import PipelineTemplate.Path.Variables

/-!
# The world around the program

The files on the disk, the environment variables and the working directory, as far as they are known.
A path is followed component by component: all but the last have to be directories.
-/

namespace PipelineTemplate

/-- What is found on the disk under a path. -/
inductive DiskEntry where
  | directory
  | file (bytes : ByteArray)

/-- The components of an absolute path. -/
abbrev Route := List (List Char)

/-- The known part of the disk, by the routes of its files and directories. The directories around a
known entry are known with it. -/
structure Disk where
  entries : List (Route × DiskEntry) := []

namespace Disk

/-- What stands under a route. -/
def find? (d : Disk) (route : Route) : Option DiskEntry :=
  match d.entries.lookup route with
  | some entry => some entry
  | none =>
    if route = [] ∨ d.entries.any fun (other, _) => route.isPrefixOf other then some .directory
    else none

def isDirectory (d : Disk) (route : Route) : Bool :=
  match d.find? route with
  | some .directory => true
  | _ => false

/-- Follows components from a route; each has to start from a directory. -/
def follow (d : Disk) (route : Route) : List (List Char) → Option DiskEntry
  | [] => d.find? route
  | component :: rest =>
    if !d.isDirectory route then none
    else if component = [] ∨ component = ['.'] then follow d route rest
    else if component = ['.', '.'] then follow d route.dropLast rest
    else follow d (route ++ [component]) rest

/-- Puts an entry in the place of what stands under a route. -/
def put (d : Disk) (route : Route) (entry : DiskEntry) : Disk :=
  ⟨(route, entry) :: d.entries.filter (·.1 ≠ route)⟩

/-- Takes a file away; the directory around it stays. -/
def remove (d : Disk) (route : Route) : Disk :=
  ⟨(route.dropLast, .directory) :: d.entries.filter (·.1 ≠ route)⟩

end Disk

structure World where
  disk : Disk := {}
  environment : Environment := []
  workingDirectory : String := "/"

namespace World

/-- The route that a normalized path takes. -/
def routeOf (w : World) (path : String) : Route :=
  (Path.components (Path.absolute w.workingDirectory path)).filter (· ≠ [])

/-- What stands under a path. -/
def find? (w : World) (path : String) : Option DiskEntry :=
  let path := if Path.isAbsolute path then path else Path.join w.workingDirectory path
  w.disk.follow [] (Path.components path)

def isFile (w : World) (path : String) : Bool :=
  match w.find? path with
  | some (.file _) => true
  | _ => false

def isDirectory (w : World) (path : String) : Bool :=
  match w.find? path with
  | some .directory => true
  | _ => false

def homeDirectory (w : World) : String := Path.homeOf w.environment

/-- The surroundings of configured paths, perhaps with an environment of their own. -/
def surroundings (w : World) (environment : Option Environment) : Surroundings :=
  ⟨environment.getD w.environment, w.homeDirectory, w.workingDirectory⟩

end World

/-- Ends each line with a line feed alone. -/
def unifyLines : List Char → List Char
  | '\r' :: '\n' :: cs => '\n' :: unifyLines cs
  | '\r' :: cs => '\n' :: unifyLines cs
  | c :: cs => c :: unifyLines cs
  | [] => []

/-- The text that bytes encode, with unified line ends. -/
def textOfBytes? (bytes : ByteArray) : Option String :=
  (String.fromUTF8? bytes).map fun s => String.ofList (unifyLines s.toList)

/-- The world after a text was written to a file; nothing if there is no directory for it, or if it is a
directory itself. -/
def World.write? (w : World) (path text : String) : Option World :=
  if w.isDirectory path || !w.isDirectory (Path.parent (Path.absolute w.workingDirectory path)) then none
  else some { w with disk := w.disk.put (w.routeOf path) (.file text.toUTF8) }

/-- Why a file cannot be read. -/
inductive ReadError where
  | missing | directory | encoding
  deriving DecidableEq

/-- The text of a file. -/
def World.readText (w : World) (path : String) : Except ReadError String :=
  match w.find? path with
  | none => .error .missing
  | some .directory => .error .directory
  | some (.file bytes) =>
    match textOfBytes? bytes with
    | some s => .ok s
    | none => .error .encoding

end PipelineTemplate
