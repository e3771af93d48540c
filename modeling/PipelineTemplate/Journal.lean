import PipelineTemplate.Value.Basic

/-!
# The journal

What the program reports about its work, as records with a level, the part of the program that
speaks, an event and further fields.
-/

namespace PipelineTemplate

inductive Level where
  | debug | info | warning | error | critical
  deriving DecidableEq

/-- Levels are ordered by numbers ten apart. -/
def Level.severity : Level → Nat
  | .debug => 10
  | .info => 20
  | .warning => 30
  | .error => 40
  | .critical => 50

def Level.name : Level → String
  | .debug => "debug"
  | .info => "info"
  | .warning => "warning"
  | .error => "error"
  | .critical => "critical"

/-- The parts of the program that speak. -/
inductive Speaker where
  | evaluation | resolution | expansion | engine | settings | command
  deriving DecidableEq

def Speaker.name : Speaker → String
  | .evaluation => "pipeline_studio.dsl.expressions.evaluator"
  | .resolution => "pipeline_studio.dsl.templates"
  | .expansion => "pipeline_studio.dsl.expander"
  | .engine => "pipeline_studio.dsl.engine"
  | .settings => "pipeline_studio.config"
  | .command => "pipeline_studio.cli.commands.expand"

structure Record where
  level : Level
  logger : String
  event : String
  fields : List (String × Value)

/-- The fields of a record together with those that are bound for all records; a field of the record
hides a bound one of the same name. -/
def Record.withBound (bound : List (String × Value)) (r : Record) : Record :=
  { r with fields := bound.filter (fun (name, _) => !r.fields.any (·.1 == name)) ++ r.fields }

/-- What comes into a journal: records, and changes of the fields that are bound for the records after
them. -/
inductive JournalStep where
  | record (r : Record)
  | bind (fields : List (String × Value))
  | clear

/-- The records of steps, each with the fields that are bound where it stands. Of the fields bound under
one name the last one counts. -/
def JournalStep.records (bound : List (String × Value)) : List JournalStep → List Record
  | [] => []
  | .record r :: steps => r.withBound bound :: records bound steps
  | .bind fields :: steps =>
    records (bound.filter (fun (name, _) => !fields.any (·.1 == name)) ++ fields) steps
  | .clear :: steps => records [] steps

end PipelineTemplate
