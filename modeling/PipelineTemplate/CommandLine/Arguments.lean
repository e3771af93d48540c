import PipelineTemplate.Text.Quoted
import PipelineTemplate.Text.Resemblance

/-!
# Arguments

The arguments of a command are options and operands. An option has a long name and perhaps a short one;
it may take a value, which is attached to it or is the next argument. Short options may share one
argument. After `--` there are no options.
-/

namespace PipelineTemplate.CommandLine

/-- What is wrong with the arguments of a command. -/
inductive Misuse where
  | unknownOption (name : String) (similar : List String)
  | missingValue (option : String)
  | unwantedValue (option : String)
  | missingOperand (name : String)
  | surplusOperands (operands : List String)
  | unknownCommand (name : String) (similar : List String)
  | invalidValue (place problem : String)
  deriving DecidableEq

/-- The names that may have been meant. -/
def meantNames (kind : String) : List String → String
  | [] => ""
  | [name] => " Did you mean " ++ Text.quoted name ++ "?"
  | names => " (Possible " ++ kind ++ ": " ++ Text.join ", " (names.map Text.quoted) ++ ")"

def Misuse.message : Misuse → String
  | .unknownOption name similar => "No such option: " ++ name ++ meantNames "options" similar
  | .missingValue option => "Option " ++ Text.quoted option ++ " requires an argument."
  | .unwantedValue option => "Option " ++ Text.quoted option ++ " does not take a value."
  | .missingOperand name => "Missing argument '" ++ name ++ "'."
  | .surplusOperands operands =>
    "Got unexpected extra argument" ++ (if operands.length = 1 then "" else "s") ++ " (" ++
      Text.join " " operands ++ ")"
  | .unknownCommand name similar =>
    "No such command " ++ Text.quoted name ++ "." ++ meantNames "commands" similar
  | .invalidValue place problem => "Invalid value for " ++ place ++ ": " ++ problem

/-- How an option is written. -/
structure OptionForm (α : Type) where
  option : α
  long : String
  short : Option Char := none
  takesValue : Bool := false

/-- The options with their values, in the order given, and the operands. An option that takes no value
has an empty one. -/
structure Arguments (α : Type) where
  options : List (α × String) := []
  operands : List String := []

namespace Arguments

variable {α : Type}

/-- What one argument says: options with their values, and perhaps at last one that still waits for its
value, with the name it is written by. -/
structure Reading (α : Type) where
  given : List (α × String) := []
  waiting : Option (α × String) := none

/-- Short options that share an argument. The first that takes a value has the rest for it. -/
def readShort (forms : List (OptionForm α)) : List Char → Except Misuse (Reading α)
  | [] => .ok {}
  | c :: cs =>
    let name := String.ofList ['-', c]
    match forms.find? (·.short = some c) with
    | none => .error (.unknownOption name [])
    | some form =>
      if !form.takesValue then do
        let r ← readShort forms cs
        return { r with given := (form.option, "") :: r.given }
      else if cs = [] then .ok { waiting := some (form.option, name) }
      else .ok { given := [(form.option, String.ofList cs)] }

/-- An argument that begins with a hyphen. It is read as a long option if there is one of this name. -/
def readOption (forms : List (OptionForm α)) (argument : String) : Except Misuse (Reading α) :=
  let (name, attached) := match Text.cut? ['='] argument.toList with
    | some (name, value) => (String.ofList name, some (String.ofList value))
    | none => (argument, none)
  match forms.find? (·.long = name) with
  | none =>
    if argument.startsWith "--" then
      .error (.unknownOption name (Text.resembling (forms.map (·.long)) name))
    else readShort forms (argument.toList.drop 1)
  | some form =>
    match form.takesValue, attached with
    | true, some value => .ok { given := [(form.option, value)] }
    | true, none => .ok { waiting := some (form.option, name) }
    | false, some _ => .error (.unwantedValue name)
    | false, none => .ok { given := [(form.option, "")] }

/-- Whether an argument is read as an option. A single hyphen is an operand. -/
def isOption (argument : String) : Bool := argument.startsWith "-" && argument ≠ "-"

/-- Reads the arguments of a command. Where options and operands are not mixed, the first operand ends
the options. -/
def read (forms : List (OptionForm α)) (mixed : Bool) : List String → Except Misuse (Arguments α)
  | [] => .ok {}
  | argument :: rest =>
    if argument = "--" then .ok { operands := rest }
    else if isOption argument then do
      let r ← readOption forms argument
      match r.waiting, rest with
      | none, rest =>
        let others ← read forms mixed rest
        return { others with options := r.given ++ others.options }
      | some (option, _), value :: rest =>
        let others ← read forms mixed rest
        return { others with options := r.given ++ (option, value) :: others.options }
      | some (_, name), [] => throw (.missingValue name)
    else if mixed then do
      let others ← read forms mixed rest
      return { others with operands := argument :: others.operands }
    else .ok { operands := argument :: rest }

/-- All values of an option, in the order given. -/
def valuesOf [DecidableEq α] (option : α) (arguments : Arguments α) : List String :=
  arguments.options.filterMap fun (other, value) => if other = option then some value else none

/-- The value of an option; of several the last one counts. -/
def valueOf? [DecidableEq α] (option : α) (arguments : Arguments α) : Option String :=
  (arguments.valuesOf option).getLast?

end Arguments

end PipelineTemplate.CommandLine
