import PipelineTemplate.Journal
import PipelineTemplate.Path.Variables
import PipelineTemplate.Text.Case
import PipelineTemplate.Value.Json
import PipelineTemplate.Value.Literal

/-!
# Lines of the journal

A record is shown as a line with columns or as a line of JSON. The environment says which, and from
which severity on records are shown.
-/

namespace PipelineTemplate

namespace Record

/-- The names of the parts that every record has; fields of these names are not shown. -/
def ownNames : List String := ["event", "level", "logger", "timestamp"]

def shownFields (r : Record) : List (String × Value) :=
  r.fields.filter fun (name, _) => !ownNames.contains name

/-- The value of a field. A text is quoted if it has blanks, quotes or an equals sign. -/
def fieldText : Value → String
  | .text s =>
    if s.toList.any [' ', '\t', '\n', '\r', '=', '"', '\''].contains then Text.quoted s else s
  | v => v.literal

/-- A text with blanks behind it up to the given width. -/
def column (width : Nat) (s : String) : String :=
  s ++ String.ofList (List.replicate (width - s.length) ' ')

/-- The record in columns: level, event, logger, and the fields in the order of their names. -/
def line (r : Record) : String :=
  let fields := r.shownFields.mergeSort fun a b => !(b.1 < a.1)
  Text.join " " (("[" ++ column 9 r.level.name ++ "]") :: column 30 r.event ::
    ("[" ++ r.logger ++ "]") :: fields.map fun (name, v) => name ++ "=" ++ fieldText v)

/-- The record as a mapping. -/
def toValue (r : Record) : Value :=
  let field (name : String) (v : Value) : Value × Value := (.text name, v)
  .map (r.shownFields.map (fun (name, v) => field name v) ++
    [field "event" (.text r.event), field "level" (.text r.level.name),
      field "logger" (.text r.logger)])

end Record

namespace Journal

/-- The severity of a level name. -/
def severity? : String → Option Nat
  | "CRITICAL" | "FATAL" => some 50
  | "ERROR" => some 40
  | "WARN" | "WARNING" => some 30
  | "INFO" => some 20
  | "DEBUG" => some 10
  | "NOTSET" => some 0
  | _ => none

/-- The severity from which on the environment asks for records; that of a warning if it names no
level. -/
def threshold (environment : Environment) : Nat :=
  ((environment.lookup "PIPELINE_STUDIO_LOG_LEVEL").bind fun name => severity? (Text.upper name)).getD
    Level.warning.severity

/-- Whether the environment asks for lines of JSON. -/
def wantsJson (environment : Environment) : Bool :=
  match environment.lookup "PIPELINE_STUDIO_LOG_FORMAT" with
  | some format => Text.lower format == "json"
  | none => false

/-- The records from a severity on. -/
def shown (threshold : Nat) (records : List Record) : List Record :=
  records.filter fun r => threshold ≤ r.level.severity

/-- The lines of records. -/
def lines (asJson : Bool) (records : List Record) : List String :=
  records.map fun r => if asJson then (r.toValue.toJson?).getD r.line else r.line

end Journal

end PipelineTemplate
