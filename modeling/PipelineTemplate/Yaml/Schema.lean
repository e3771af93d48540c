import PipelineTemplate.Text.Digit

/-!
# Tags and schemas

What a node is: a tag that is written out, or one found from the form of a plain scalar. Documents
follow the core schema, in which `true` and `false` are the only truth values, `010` is ten and dates
are texts. Settings follow the older schema, which also knows `yes` and `on`, octal and binary
numerals, numbers in base sixty and dates.

A form may be followed by one line break.
-/

namespace PipelineTemplate.Yaml

inductive Tag where
  | text | integer | real | truth | null | merge | value | date | sequence | mapping
  | other (name : String)
  deriving DecidableEq

/-- The tag of a name that is written out in full. -/
def Tag.ofName (name : String) : Tag :=
  let known : List (String × Tag) :=
    [("str", .text), ("int", .integer), ("float", .real), ("bool", .truth), ("null", .null),
      ("merge", .merge), ("value", .value), ("timestamp", .date), ("seq", .sequence),
      ("map", .mapping)]
  match known.find? fun (short, _) => "tag:yaml.org,2002:" ++ short == name with
  | some (_, tag) => tag
  | none => .other name

inductive Schema where
  | core | older
  deriving DecidableEq

namespace Schema

/-! ## Parts of forms -/

/-- Drops a sign. -/
def unsigned : List Char → List Char
  | '+' :: cs | '-' :: cs => cs
  | cs => cs

/-- A run of characters with a property; it is not empty. -/
def isRun (test : Char → Bool) (cs : List Char) : Bool := !cs.isEmpty && cs.all test

def isOctal (c : Char) : Bool := '0' ≤ c && c ≤ '7'

/-- A digit or a low line between digits. -/
def isSpaced (test : Char → Bool) (c : Char) : Bool := test c || c = '_'

/-- A digit, and then digits and low lines. -/
def isSpacedNumeral : List Char → Bool
  | [] => false
  | c :: cs => Text.isPlainDigit c && cs.all (isSpaced Text.isPlainDigit)

/-- The pieces between colons. -/
def colonPieces (cs : List Char) : List (List Char) :=
  cs.foldr (fun c pieces =>
    if c = ':' then [] :: pieces
    else match pieces with
      | piece :: rest => (c :: piece) :: rest
      | [] => [[c]]) [[]]

/-- One or two digits of a number below sixty. -/
def isSixtieth : List Char → Bool
  | [d] => Text.isPlainDigit d
  | [t, d] => '0' ≤ t && t ≤ '5' && Text.isPlainDigit d
  | _ => false

def isInfinity (cs : List Char) : Bool :=
  cs ∈ [".inf".toList, ".Inf".toList, ".INF".toList]

def isNaN (cs : List Char) : Bool :=
  cs ∈ [".nan".toList, ".NaN".toList, ".NAN".toList]

def isNull (cs : List Char) : Bool :=
  cs ∈ ["".toList, "~".toList, "null".toList, "Null".toList, "NULL".toList]

/-! ## Forms of the core schema -/

def isCoreTruth (cs : List Char) : Bool :=
  String.ofList cs ∈ ["true", "True", "TRUE", "false", "False", "FALSE"]

def isCoreInteger (cs : List Char) : Bool :=
  isRun Text.isPlainDigit (unsigned cs) ||
    match cs with
    | '0' :: 'o' :: digits => isRun isOctal digits
    | '0' :: 'x' :: digits => isRun Text.isHex digits
    | _ => false

def isCoreReal (cs : List Char) : Bool :=
  let exponent : List Char → Bool
    | [] => true
    | mark :: digits =>
      (mark = 'e' || mark = 'E') && isRun Text.isPlainDigit (unsigned digits)
  let (whole, rest) := (unsigned cs).span Text.isPlainDigit
  let decimal := match rest with
    | '.' :: rest =>
      let (fraction, rest) := rest.span Text.isPlainDigit
      (!whole.isEmpty || !fraction.isEmpty) && exponent rest
    | rest => !whole.isEmpty && exponent rest
  decimal || isInfinity (unsigned cs) || isNaN cs

/-! ## Forms of the older schema -/

def isOlderTruth (cs : List Char) : Bool :=
  String.ofList cs ∈ ["yes", "Yes", "YES", "no", "No", "NO", "true", "True", "TRUE", "false", "False",
    "FALSE", "on", "On", "ON", "off", "Off", "OFF"]

/-- A first number and further ones below sixty, with colons between. -/
def isSexagesimal (first : List Char → Bool) (cs : List Char) : Bool :=
  match colonPieces cs with
  | piece :: more => first piece && !more.isEmpty && more.all isSixtieth
  | [] => false

def isOlderInteger (cs : List Char) : Bool :=
  let positive : List Char → Bool
    | [] => false
    | c :: cs => '1' ≤ c && c ≤ '9' && cs.all (isSpaced Text.isPlainDigit)
  let digits := unsigned cs
  positive digits || isSexagesimal positive digits ||
    match digits with
    | ['0'] => true
    | '0' :: 'b' :: digits => isRun (isSpaced fun c => c = '0' || c = '1') digits
    | '0' :: 'x' :: digits => isRun (isSpaced Text.isHex) digits
    | '0' :: digits => isRun (isSpaced isOctal) digits
    | _ => false

def isOlderReal (cs : List Char) : Bool :=
  let exponent : List Char → Bool
    | [] => true
    | mark :: sign :: digits =>
      (mark = 'e' || mark = 'E') && (sign = '+' || sign = '-') && isRun Text.isPlainDigit digits
    | _ => false
  let beforeExponent (rest : List Char) : Bool :=
    exponent (rest.dropWhile (isSpaced Text.isPlainDigit))
  let plain := match (unsigned cs).span (isSpaced Text.isPlainDigit) with
    | (whole, '.' :: rest) => isSpacedNumeral whole && beforeExponent rest
    | _ => false
  let bare := match cs with
    | '.' :: c :: rest => Text.isPlainDigit c && beforeExponent rest
    | _ => false
  let sexagesimal := match (unsigned cs).span (· ≠ '.') with
    | (whole, _ :: fraction) =>
      isSexagesimal isSpacedNumeral whole && fraction.all (isSpaced Text.isPlainDigit)
    | _ => false
  plain || bare || sexagesimal || isInfinity (unsigned cs) || isNaN cs

end Schema

/-- The parts of a date as written: year, month and day, and perhaps a time of day with a fraction and
an offset from universal time. -/
structure Stamp where
  year : List Char
  month : List Char
  day : List Char
  time : Option (List Char × List Char × List Char) := none
  fraction : List Char := []
  /-- Universal time, or an offset in hours and minutes; the flag is for a negative one. -/
  zone : Option (Option (Bool × List Char × List Char)) := none

namespace Stamp

/-- A given number of digits, or one less if `short`. -/
def takeDigits (width : Nat) (short : Bool) (cs : List Char) : Option (List Char × List Char) :=
  let digits := (cs.takeWhile Text.isPlainDigit).take width
  if digits.length = width ∨ (short ∧ digits.length + 1 = width) then
    some (digits, cs.drop digits.length)
  else none

def takeChar (char : Char) : List Char → Option (List Char)
  | [] => none
  | c :: cs => if c = char then some cs else none

def isGap (c : Char) : Bool := c = ' ' || c = '\t'

/-- The offset at the end of a date. -/
def readZone? (cs : List Char) : Option (Option (Option (Bool × List Char × List Char))) :=
  match cs with
  | [] => some none
  | _ =>
    match cs.dropWhile isGap with
    | ['Z'] => some (some none)
    | sign :: rest =>
      if sign = '+' ∨ sign = '-' then do
        let (hours, rest) ← takeDigits 2 true rest
        match rest with
        | [] => some (some (some (decide (sign = '-'), hours, [])))
        | ':' :: rest =>
          let (minutes, rest) ← takeDigits 2 false rest
          if rest = [] then some (some (some (decide (sign = '-'), hours, minutes))) else none
        | _ => none
      else none
    | [] => none

/-- Reads a date. -/
def read? (cs : List Char) : Option Stamp := do
  let (year, cs) ← takeDigits 4 false cs
  let cs ← takeChar '-' cs
  let (month, cs) ← takeDigits 2 true cs
  let cs ← takeChar '-' cs
  let (day, cs) ← takeDigits 2 true cs
  if cs = [] then return { year, month, day }
  let cs ← match cs with
    | 'T' :: rest | 't' :: rest => some rest
    | ' ' :: rest | '\t' :: rest => some (rest.dropWhile isGap)
    | _ => none
  let (hour, cs) ← takeDigits 2 true cs
  let cs ← takeChar ':' cs
  let (minute, cs) ← takeDigits 2 false cs
  let cs ← takeChar ':' cs
  let (second, cs) ← takeDigits 2 false cs
  let (fraction, cs) := match cs with
    | '.' :: cs => (cs.takeWhile Text.isPlainDigit, cs.dropWhile Text.isPlainDigit)
    | cs => ([], cs)
  let zone ← readZone? cs
  return { year, month, day, time := some (hour, minute, second), fraction, zone }

/-- Whether month and day have two digits each, as a date without a time needs to be seen as one. -/
def isFull (s : Stamp) : Bool := s.time.isSome || (s.month.length = 2 && s.day.length = 2)

end Stamp

namespace Schema

/-- The tag of a plain scalar. -/
def tagOf (schema : Schema) (s : String) : Tag :=
  let cs := s.toList
  let cs := if cs.getLast? = some '\n' then cs.dropLast else cs
  if s = "" then .null
  else match schema with
    | .core =>
      if isCoreTruth cs then .truth
      else if isCoreInteger cs then .integer
      else if isCoreReal cs then .real
      else if isNull cs && cs ≠ [] then .null
      else if cs = ['<', '<'] then .merge
      else .text
    | .older =>
      if isOlderTruth cs then .truth
      else if isOlderReal cs then .real
      else if isOlderInteger cs then .integer
      else if cs = ['<', '<'] then .merge
      else if isNull cs && cs ≠ [] then .null
      else if (Stamp.read? cs).any (·.isFull) then .date
      else if cs = ['='] then .value
      else .text

end Schema

end PipelineTemplate.Yaml
