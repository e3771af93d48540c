import PipelineTemplate.Text.Occurrence

/-!
# Paths

Paths with slashes between their components, handled as text. A path that starts with exactly two
slashes keeps both.
-/

namespace PipelineTemplate.Path

def isAbsolute (path : String) : Bool := path.startsWith "/"

/-- The components between slashes, empty ones included. -/
def components (path : String) : List (List Char) := Text.split ['/'] path.toList

/-- The slashes that a path starts with: none, one, or exactly two. -/
def root (path : String) : String :=
  match path.toList with
  | '/' :: '/' :: '/' :: _ => "/"
  | '/' :: '/' :: _ => "//"
  | '/' :: _ => "/"
  | _ => ""

def ofComponents (root : String) (parts : List (List Char)) : String :=
  root ++ Text.join "/" (parts.map String.ofList)

/-- The path with another one after it; an absolute one replaces it. -/
def join (path next : String) : String :=
  if isAbsolute next then next
  else if path = "" ∨ path.endsWith "/" then path ++ next
  else path ++ "/" ++ next

/-- One component more on a normalized path, whose components are in reverse order: `..` takes one
away where there is one to take. -/
def step (rooted : Bool) (parts : List (List Char)) (component : List Char) : List (List Char) :=
  if component = [] ∨ component = ['.'] then parts
  else if component = ['.', '.'] then
    match parts with
    | [] => if rooted then [] else [component]
    | last :: rest => if last = ['.', '.'] then component :: parts else rest
  else component :: parts

/-- The shortest path that the text stands for, without a look at the disk. -/
def normalize (path : String) : String :=
  let parts := (components path).foldl (step (isAbsolute path)) []
  let text := ofComponents (root path) parts.reverse
  if text = "" then "." else text

/-- The path without empty and `.` components. -/
def tidy (path : String) : String :=
  let text := ofComponents (root path)
    ((components path).filter fun part => part ≠ [] && part ≠ ['.'])
  if text = "" then "." else text

/-- The normalized path, taken from the working directory when it is relative. -/
def absolute (workingDirectory path : String) : String :=
  normalize (if isAbsolute path then path else join workingDirectory path)

/-- What stands before the last slash. -/
def parent (path : String) : String :=
  match (components path).reverse with
  | _ :: before@(_ :: _) =>
    let head := Text.join "/" (before.reverse.map String.ofList)
    let trimmed := String.ofList (head.toList.reverse.dropWhile (· = '/')).reverse
    if trimmed = "" then head ++ "/" else trimmed
  | _ => ""

/-- What stands after the last slash. -/
def name (path : String) : String :=
  String.ofList ((components path).getLastD [])

end PipelineTemplate.Path
