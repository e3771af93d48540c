import PipelineTemplate.Context
import PipelineTemplate.Failure
import PipelineTemplate.Journal
import PipelineTemplate.Expression.Syntax
import PipelineTemplate.World

/-!
# Sessions

What an expansion engine remembers from one run to the next: the counters, the expressions that it
has read, the repository locations that it has resolved, and the journal. A run that fails keeps
what was remembered up to its failure. A session also holds the world that its runs look at, the paths
that they have looked at so far, and the way that expansions have taken through contexts and templates.
-/

namespace PipelineTemplate

/-- The next value of each counter, by key. -/
abbrev Counters := List (String × Number.Numeric)

/-- A point on the way of an expansion. -/
inductive Waypoint where
  /-- A context that parts of a document are expanded in. -/
  | entered (ctx : Context)
  /-- A template that a reference in a context was resolved to, before it is read. -/
  | found (ctx : Context) (reference path : String)

structure Session where
  counters : Counters := []
  /-- The readings of expression texts; nothing stands for a text that is no expression. -/
  expressions : List (String × Option Expr) := []
  /-- The resolved repository locations, by location text and workspace. -/
  locations : List ((String × Option String) × String) := []
  /-- The records, the newest first. -/
  journal : List Record := []
  world : World := {}
  /-- The paths whose files or directories were looked at. -/
  visited : List String := []
  /-- The way of the expansions, the last point first. -/
  trail : List Waypoint := []

instance : Inhabited Session := ⟨{}⟩

/-- A run in a session. -/
abbrev Run := ExceptT Failure (StateM Session)

namespace Session

/-- The counters as a value. -/
def countersValue (s : Session) : Value :=
  .map (s.counters.map fun (key, n) => (.text key, .number n))

end Session

namespace Run

/-- Puts a record into the journal. -/
def report (level : Level) (speaker : Speaker) (event : String)
    (fields : List (String × Value)) : Run Unit :=
  modify fun s => { s with journal := ⟨level, speaker.name, event, fields⟩ :: s.journal }

/-- Passes a point on the way. -/
def pass (point : Waypoint) : Run Unit :=
  modify fun s => { s with trail := point :: s.trail }

/-- Looks at what stands under a path. -/
def look {α : Type} (path : String) (see : World → String → α) : Run α := do
  modify fun s => { s with visited := path :: s.visited }
  return see (← get).world path

/-- Carries out a run with fields that are bound for all its records. -/
def bound {α : Type} (fields : List (String × Value)) (run : Run α) : Run α :=
  ExceptT.mk fun s =>
    let (result, after) := (ExceptT.run run).run { s with journal := [] }
    (result, { after with journal := after.journal.map (·.withBound fields) ++ s.journal })

/-- Carries out a run in a session. -/
def start {α : Type} (run : Run α) (s : Session) : Except Failure α × Session :=
  (ExceptT.run run).run s

end Run

end PipelineTemplate
