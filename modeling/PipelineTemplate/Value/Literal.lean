import PipelineTemplate.Value.Mapping
import PipelineTemplate.Text.Quoted
import PipelineTemplate.Text.Occurrence

/-!
# Literals

The text of a value in messages: brackets around lists and mappings, quoted texts, capitalised
constants.
-/

namespace PipelineTemplate

/-- The names of the parts of a duration, days and seconds. -/
def Offset.literal (o : Offset) : String :=
  if o.minutes = 0 then "datetime.timezone.utc"
  else
    let days := if o.negative then "days=-1, " else ""
    let seconds := if o.negative then 86400 - o.minutes * 60 else o.minutes * 60
    "datetime.timezone(datetime.timedelta(" ++ days ++ "seconds=" ++ Text.ofNat seconds ++ "))"

def Date.literal (d : Date) : String :=
  "datetime.date(" ++ Text.join ", " [Text.ofNat d.year, Text.ofNat d.month, Text.ofNat d.day] ++ ")"

/-- Seconds and microseconds are left out where they are zero. -/
def DateTime.literal (t : DateTime) : String :=
  let parts := [t.year, t.month, t.day, t.hour, t.minute] ++
    (if t.microsecond ≠ 0 then [t.second, t.microsecond]
      else if t.second ≠ 0 then [t.second] else [])
  "datetime.datetime(" ++ Text.join ", " (parts.map Text.ofNat ++
    (t.offset.map fun o => "tzinfo=" ++ o.literal).toList) ++ ")"

namespace Value

mutual

def literal : Value → String
  | .null => "None"
  | .undefined => "UNDEFINED"
  | .bool b => if b then "True" else "False"
  | .number (.int n) => Text.ofInt n
  | .number (.float x) => Number.literalLayout.render x
  | .text s => Text.quoted s
  | .date d => d.literal
  | .time t => t.literal
  | .list items | .aliased items _ => "[" ++ Text.join ", " (literals items) ++ "]"
  | .tuple [item] => "(" ++ literal item ++ ",)"
  | .tuple items => "(" ++ Text.join ", " (literals items) ++ ")"
  | .map entries => "\x7b" ++ Text.join ", " (entryLiterals entries) ++ "\x7d"
  | .pairs entries => "YamlMapping(\x7b" ++ Text.join ", " (entryLiterals entries) ++ "\x7d)"
  | .reference template parameters =>
    "TemplateReference(template=" ++ literal template ++ ", parameters=" ++ literal parameters ++ ")"
  | .callable _ => "<function>"

def literals : List Value → List String
  | [] => []
  | v :: vs => literal v :: literals vs

def entryLiterals : List (Value × Value) → List String
  | [] => []
  | (k, v) :: rest => (literal k ++ ": " ++ literal v) :: entryLiterals rest

end

/-- The text of a value that stands by itself in a message: a text is shown without quotes. -/
def display : Value → String
  | .text s => s
  | .date d => d.text
  | .time t => t.text " "
  | v => v.literal

end Value

end PipelineTemplate
