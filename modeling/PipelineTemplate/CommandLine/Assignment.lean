import PipelineTemplate.Text.Quoted
import PipelineTemplate.Yaml.Protected

/-!
# Assignments

Arguments of the form `NAME=VALUE`, and the values of parameters that are given in this form.
-/

namespace PipelineTemplate.CommandLine

/-- Splits an assignment at its first equals sign. The name is not blank and loses the blanks around
it. -/
def splitAssignment? (raw : String) : Option (String × String) := do
  let (name, value) ← Text.cut? ['='] raw.toList
  let name := Text.trim name
  if name = [] then none else some (String.ofList name, String.ofList value)

/-- What is reported for a text that is no assignment. -/
def assignmentProblem (raw : String) : String := "expected NAME=VALUE, got " ++ Text.quoted raw

/-- The value that a text stands for: what it says as a document, or the text itself if it is not well
formed. A blank text stands for an empty one. -/
def parameterValue (raw : String) : Except Failure Value :=
  match Yaml.load raw none with
  | .error (.malformedDocument ..) => .ok (.text raw)
  | .ok .null => .ok (if Text.isBlankText raw then .text "" else .null)
  | r => r

end PipelineTemplate.CommandLine
