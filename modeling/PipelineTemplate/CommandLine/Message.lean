import PipelineTemplate.Failure

/-!
# Messages to the user

A failure is told with its message, with details below it and, where there is one, with a suggestion.
-/

namespace PipelineTemplate.CommandLine

/-- The text that tells of a failure. -/
def failureText (message : String) (details : List String) (suggestion : Option String) : String :=
  Text.join "\n" (("Error: " ++ message) :: details.map ("  " ++ ·) ++
    ((suggestion.filter (· ≠ "")).map ("Suggestion: " ++ ·)).toList)

/-- The text that tells of a success. -/
def successText (message : String) : String := "✓ " ++ message

/-- What is told of a failure beyond its message: file and line, the path that was tried, or the
templates that led there. -/
def details : Failure → List String
  | .malformedDocument _ _ file line =>
    ((file.filter (· ≠ "")).map ("File: " ++ ·)).toList ++
      ((line.filter (· ≠ 0)).map fun n => "Line: " ++ Text.ofNat n).toList
  | .templateNotFound _ path => if path = "" then [] else ["Path: " ++ path]
  | .recursiveTemplate _ chain | .templatesTooDeep _ chain _ => chain.map ("via " ++ ·)
  | .settingsNoMapping _ kind => ["Value: " ++ kind]
  | .invalidSetting _ field v =>
    (if field = "" then [] else ["Field: " ++ field]) ++
      (if v.isNull then [] else ["Value: " ++ v.display])
  | _ => []

/-- What the user may do about a failure. -/
def suggestion? : Failure → Option String
  | .unknownRepository repository _ | .repositoryWithoutLocation repository _ =>
    some ("Map the repository with --repo " ++ repository ++ "=PATH")
  | _ => none

/-- The text for a failure that is reported to the user; a lower-level cause is worded by the caller. -/
def report? (describe : Detail → String) (f : Failure) : Option String :=
  (f.message? describe).map fun message => failureText message (details f) (suggestion? f)

end PipelineTemplate.CommandLine
