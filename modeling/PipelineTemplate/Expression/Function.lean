import PipelineTemplate.Session
import PipelineTemplate.Value.Comparison
import PipelineTemplate.Value.Member
import PipelineTemplate.Value.Json

/-!
# Functions of expressions

The functions that an expression can call by name, in any letter case. A missing argument is
undefined, and no function rejects its arguments. Counters are the only state.
-/

namespace PipelineTemplate

/-! ## Formats of dates and texts -/

/-- The patterns of a date format, a pattern before those that it begins with. -/
def datePatterns : List String :=
  ["yyyy", "yy", "MM", "M", "dd", "d", "HH", "H", "mm", "m", "ss", "s", "ffff", "fff", "ff", "f"]

/-- The text that a pattern stands for. -/
def DateTime.field (t : DateTime) : String → String
  | "yyyy" => Text.padded 4 t.year
  | "yy" => Text.padded 2 (t.year % 100)
  | "MM" => Text.padded 2 t.month
  | "M" => Text.ofNat t.month
  | "dd" => Text.padded 2 t.day
  | "d" => Text.ofNat t.day
  | "HH" => Text.padded 2 t.hour
  | "H" => Text.ofNat t.hour
  | "mm" => Text.padded 2 t.minute
  | "m" => Text.ofNat t.minute
  | "ss" => Text.padded 2 t.second
  | "s" => Text.ofNat t.second
  | "ffff" => Text.padded 4 (t.microsecond / 100)
  | "fff" => Text.padded 3 (t.microsecond / 1000)
  | "ff" => Text.padded 2 (t.microsecond / 10000)
  | "f" => Text.ofNat (t.microsecond / 100000)
  | s => s

/-- The format with its patterns filled in; `skip` counts the characters of a pattern that are still
to be passed over. -/
def DateTime.fill (t : DateTime) : Nat → List Char → List Char
  | _, [] => []
  | skip + 1, _ :: cs => t.fill skip cs
  | 0, c :: cs =>
    match datePatterns.find? fun p => p.toList.isPrefixOf (c :: cs) with
    | some p => (t.field p).toList ++ t.fill (p.length - 1) cs
    | none => c :: t.fill 0 cs

/-- A date or a time in the given format. -/
def DateTime.format (t : DateTime) (spec : String) : String :=
  String.ofList (t.fill 0 spec.toList)

def Value.time? : Value → Option DateTime
  | .date d => some { d with }
  | .time t => some t
  | _ => none

/-- A placeholder at the beginning of the text: a position, perhaps a format after a colon, between
braces. The length of the placeholder comes first. -/
def placeholder? : List Char → Option (Nat × Nat × List Char)
  | '\x7b' :: cs =>
    let (digits, rest) := Text.spanDecimal cs
    if digits = [] then none
    else
      match rest with
      | '\x7d' :: _ => some (digits.length + 2, Text.numeral digits, [])
      | ':' :: rest =>
        let spec := rest.takeWhile (· ≠ '\x7d')
        if spec ≠ [] ∧ spec.length < rest.length then
          some (digits.length + spec.length + 3, Text.numeral digits, spec)
        else none
      | _ => none
  | _ => none

/-- The text of a value at a placeholder; only dates heed the format. -/
def Value.formatted (v : Value) (spec : List Char) : List Char :=
  match v.time? with
  | some t => if spec = [] then v.toText.toList else (t.format (String.ofList spec)).toList
  | none => v.toText.toList

/-- The template with its placeholders filled in and its doubled braces made single. A placeholder
without a value stays as it is. -/
def fillPlaceholders (values : List Value) : Nat → List Char → List Char
  | _, [] => []
  | skip + 1, _ :: cs => fillPlaceholders values skip cs
  | 0, c :: cs =>
    if ['\x7b', '\x7b'].isPrefixOf (c :: cs) || ['\x7d', '\x7d'].isPrefixOf (c :: cs) then
      c :: fillPlaceholders values 1 cs
    else
      match placeholder? (c :: cs) with
      | some (length, position, spec) =>
        (match values[position]? with
          | some v => v.formatted spec
          | none => (c :: cs).take length) ++ fillPlaceholders values (length - 1) cs
      | none => c :: fillPlaceholders values 0 cs

/-! ## The functions -/

inductive Builtin where
  | eq | ne | gt | ge | lt | le
  | and | or | not | xor
  | coalesce | contains | containsValue | isIn | notIn
  | lower | upper | trim | startsWith | endsWith | replace | split | join | format | length
  | convertToJson | counter | iif
  | always | canceled | failed | succeeded | succeededOrFailed
  deriving DecidableEq

namespace Builtin

/-- The functions by their names in small letters. -/
def table : List (String × Builtin) := [
  ("eq", .eq), ("ne", .ne), ("gt", .gt), ("ge", .ge), ("lt", .lt), ("le", .le),
  ("and", .and), ("or", .or), ("not", .not), ("xor", .xor),
  ("coalesce", .coalesce), ("contains", .contains), ("containsvalue", .containsValue),
  ("in", .isIn), ("notin", .notIn),
  ("lower", .lower), ("upper", .upper), ("trim", .trim), ("startswith", .startsWith),
  ("endswith", .endsWith), ("replace", .replace), ("split", .split), ("join", .join),
  ("format", .format), ("length", .length),
  ("converttojson", .convertToJson), ("counter", .counter), ("iif", .iif),
  ("always", .always), ("canceled", .canceled), ("failed", .failed), ("succeeded", .succeeded),
  ("succeededorfailed", .succeededOrFailed)]

/-- The function of a name, in whatever letter case. -/
def named? (name : String) : Option Builtin := table.lookup (Text.lower name)

/-- An argument by position. -/
def argument (arguments : List Value) (position : Nat) : Value :=
  (arguments[position]?).getD .undefined

/-- Whether some of the values compares equal to the given one. -/
def anyEqual (values : List Value) (v : Value) : Bool :=
  values.any fun item => item.compare v == .eq

/-- The first argument that is neither missing nor the empty text. -/
def firstFilled : List Value → Value
  | [] => .undefined
  | .null :: rest | .undefined :: rest | .text "" :: rest => firstFilled rest
  | v :: _ => v

/-- Whether a text contains a text, a list an item or a mapping a key. -/
def containing (container v : Value) : Bool :=
  match container with
  | .text whole =>
    match v with
    | .text part => Text.contains part whole
    | _ => false
  | .map entries | .pairs entries => Entries.hasKey v entries
  | container => anyEqual ((container.items?).getD []) v

/-- Whether a list contains an item or a mapping a value. -/
def containingValue (container v : Value) : Bool :=
  match container.entries? with
  | some entries => anyEqual (entries.map (·.2)) v
  | none => anyEqual ((container.items?).getD []) v

/-- Applies a function to a text and leaves other values alone. -/
def onText (f : String → String) : Value → Value
  | .text s => .text (f s)
  | v => v

/-- Whether both are texts and, in small letters, one lies at an end of the other. -/
def bordering (test : List Char → List Char → Bool) (whole part : Value) : Bool :=
  match whole, part with
  | .text s, .text t => test (Text.lower t).toList (Text.lower s).toList
  | _, _ => false

/-- The pieces of a text between delimiters, or its characters when the delimiter is empty. -/
def splitText (text delimiter : String) : List Value :=
  if delimiter = "" then text.toList.map fun c => .text (String.singleton c)
  else (Text.split delimiter.toList text.toList).map fun piece => .text (String.ofList piece)

/-- The text of an item of a joined list; collections have none. -/
def joinedText : Value → String
  | .map _ | .pairs _ | .list _ | .aliased .. | .tuple _ => ""
  | v => v.toText

/-- The number that a counter starts from: a number itself, or the leading integer of a text. -/
def seed : Value → Number.Numeric
  | .number n => n
  | .text s =>
    let cs := s.toList.dropWhile Text.isBlank
    let (negative, unsigned) : Bool × List Char := match cs with
      | '-' :: cs => (true, cs)
      | '+' :: cs => (false, cs)
      | cs => (false, cs)
    let n : Int := Text.numeral (Text.spanDecimal unsigned).1
    .int (if negative then -n else n)
  | _ => .int 0

/-- The counters with the one of a key advanced, and the value that it had. -/
def advance (counters : Counters) (key : String) (start : Number.Numeric) :
    Except Number.Numeric.Undefined (Number.Numeric × Counters) :=
  let current := (counters.lookup key).getD start
  (current.add (.int 1)).map fun next =>
    (current,
      if (counters.lookup key).isSome then
        counters.map fun (k, n) => if k == key then (k, next) else (k, n)
      else counters ++ [(key, next)])

def truth (b : Bool) : Value := .bool b

/-- Gives the values of the functions that neither fail nor keep state. -/
def value (f : Builtin) (arguments : List Value) : Value :=
  let first := argument arguments 0
  let second := argument arguments 1
  match f with
  | .eq => truth (first.compare second == .eq)
  | .ne => truth (first.compare second != .eq)
  | .gt => truth (first.compare second == .gt)
  | .ge => truth (first.compare second != .lt)
  | .lt => truth (first.compare second == .lt)
  | .le => truth (first.compare second != .gt)
  | .and => truth (arguments.all Value.isTrue)
  | .or => truth (arguments.any Value.isTrue)
  | .not => truth (!first.isTrue)
  | .xor => truth (first.isTrue != second.isTrue)
  | .coalesce => firstFilled arguments
  | .contains => truth (containing first second)
  | .containsValue => truth (containingValue first second)
  | .isIn => truth (arguments.tail.any fun v => first.compare v == .eq)
  | .notIn => truth (!arguments.tail.any fun v => first.compare v == .eq)
  | .lower => onText Text.lower first
  | .upper => onText Text.upper first
  | .trim => onText Text.strip first
  | .startsWith => truth (bordering List.isPrefixOf first second)
  | .endsWith => truth (bordering List.isSuffixOf first second)
  | .replace =>
    let search := second.toText
    let replacement := (argument arguments 2).toText
    onText (fun s => if search = "" then s else Text.replaceText search replacement s) first
  | .split =>
    match first with
    | .text s => .list (splitText s second.toText)
    | v => .list [v]
  | .join =>
    match second.items? with
    | some items => .text (Text.join first.toText (items.map joinedText))
    | none => .text second.toText
  | .format =>
    match arguments with
    | [] => .text ""
    | template :: values =>
      .text (String.ofList (fillPlaceholders values 0 template.toText.toList))
  | .length =>
    match first with
    | .text s => .int s.length
    | v =>
      match v.entries? with
      | some entries => .int entries.length
      | none => .int ((v.items?).getD []).length
  | .iif => if first.isTrue then second else argument arguments 2
  | .always | .succeeded | .succeededOrFailed => truth true
  | .canceled | .failed => truth false
  | .convertToJson | .counter => .undefined

/-- Calls a function. -/
def call (f : Builtin) (arguments : List Value) : Run Value :=
  match f with
  | .convertToJson =>
    match argument arguments 0 with
    | .undefined => return .text "null"
    | v =>
      match v.toIndentedJson? with
      | some s => return .text s
      | none => throw .notSerializable
  | .counter => do
    let s ← get
    match advance s.counters (argument arguments 0).toText (seed (argument arguments 1)) with
    | .ok (n, counters) =>
      modify fun s => { s with counters }
      return .number n
    | .error cause => throw (.arithmetic cause)
  | f => return f.value arguments

/-- Calls a function by name; an unknown function gives null. -/
def callNamed (name : String) (arguments : List Value) : Run Value :=
  match named? name with
  | some f => f.call arguments
  | none => return .null

end Builtin

end PipelineTemplate
