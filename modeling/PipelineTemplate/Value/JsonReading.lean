import PipelineTemplate.Text.Occurrence
import PipelineTemplate.Value.Mapping

/-!
# Reading JSON text

The value of a JSON text. The words for infinities and for no number count as numbers. Of entries with
the same key the last one counts.
-/

namespace PipelineTemplate.JsonText

def isBlank (c : Char) : Bool := c = ' ' || c = '\t' || c = '\n' || c = '\r'

/-- The text from its first character that is not blank. -/
def afterBlanks (cs : List Char) : List Char := cs.dropWhile isBlank

/-- What follows a character and the blanks before it. -/
def after? (char : Char) (cs : List Char) : Option (List Char) :=
  Text.dropPrefix? [char] (afterBlanks cs)

/-- What an escape of one letter stands for. -/
def escape? : Char → Option Char
  | '"' => some '"'
  | '\\' => some '\\'
  | '/' => some '/'
  | 'b' => some '\x08'
  | 'f' => some '\x0c'
  | 'n' => some '\n'
  | 'r' => some '\r'
  | 't' => some '\t'
  | _ => none

/-- The number of four hexadecimal digits. -/
def code? (digits : List Char) : Option Nat :=
  if digits.length = 4 ∧ digits.all Text.isHex then some (Text.hexNumeral digits) else none

/-- The numbers of the characters of a text after its opening quotation mark, and what follows the closing
one. -/
def codes? : List Char → Option (List Nat × List Char)
  | [] => none
  | '"' :: rest => some ([], rest)
  | '\\' :: 'u' :: a :: b :: c :: d :: rest => do
    let code ← code? [a, b, c, d]
    let (codes, rest) ← codes? rest
    return (code :: codes, rest)
  | '\\' :: letter :: rest => do
    let char ← escape? letter
    let (codes, rest) ← codes? rest
    return (char.toNat :: codes, rest)
  | c :: rest => do
    if c = '\\' || c < ' ' then none
    else
      let (codes, rest) ← codes? rest
      return (c.toNat :: codes, rest)

/-- The characters of numbers. A high and a low half that follow each other form one character. -/
def characters : List Nat → List Char
  | [] => []
  | [code] => [Char.ofNat code]
  | high :: low :: codes =>
    if 0xD800 ≤ high ∧ high < 0xDC00 ∧ 0xDC00 ≤ low ∧ low < 0xE000 then
      Char.ofNat (0x10000 + (high - 0xD800) * 0x400 + (low - 0xDC00)) :: characters codes
    else Char.ofNat high :: characters (low :: codes)

/-- A text after its opening quotation mark, and what follows the closing one. -/
def text? (cs : List Char) : Option (String × List Char) :=
  (codes? cs).map fun (codes, rest) => (String.ofList (characters codes), rest)

/-- The digits at the front of a text. -/
def digits (cs : List Char) : List Char := cs.takeWhile Text.isPlainDigit

/-- The length of a number at the front of a text, and whether it is a double. -/
def numberLength? (cs : List Char) : Option (Nat × Bool) :=
  let sign := if cs.head? = some '-' then 1 else 0
  let whole := digits (cs.drop sign)
  if whole = [] then none
  else
    let whole := if whole.head? = some '0' then 1 else whole.length
    let length := sign + whole
    let fraction := match cs.drop length with
      | '.' :: rest => if digits rest = [] then 0 else (digits rest).length + 1
      | _ => 0
    let exponent := match cs.drop (length + fraction) with
      | mark :: rest =>
        let sign := if rest.head? = some '-' ∨ rest.head? = some '+' then 1 else 0
        let power := digits (rest.drop sign)
        if (mark = 'e' ∨ mark = 'E') ∧ power ≠ [] then power.length + sign + 1 else 0
      | [] => 0
    some (length + fraction + exponent, 0 < fraction + exponent)

def number? (cs : List Char) : Option (Value × List Char) := do
  let (length, isDouble) ← numberLength? cs
  let numeral := cs.take length
  let v ←
    if isDouble then (Number.readBinary64? numeral).map fun x => .number (.float x)
    else
      let whole := Text.numeral (digits (numeral.dropWhile (· = '-')))
      some (.int (if numeral.head? = some '-' then -(whole : Int) else whole))
  return (v, cs.drop length)

/-- The words that are values. -/
def words : List (String × Value) :=
  [("null", .null), ("true", .bool true), ("false", .bool false),
    ("NaN", .number (.float .nan)), ("Infinity", .number (.float (.infinite false))),
    ("-Infinity", .number (.float (.infinite true)))]

mutual

/-- The value at the front of a text, and what follows it; the depth of brackets and their parts is
bounded. -/
def value? : Nat → List Char → Option (Value × List Char)
  | 0, _ => none
  | bound + 1, cs =>
    match afterBlanks cs with
    | '"' :: rest => (text? rest).map fun (s, rest) => (.text s, rest)
    | '[' :: rest =>
      match after? ']' rest with
      | some rest => some (.list [], rest)
      | none => (items? bound rest).map fun (items, rest) => (.list items, rest)
    | '\x7b' :: rest =>
      match after? '\x7d' rest with
      | some rest => some (.map [], rest)
      | none => (entries? bound rest).map fun (entries, rest) => (.map (Entries.ofPairs entries), rest)
    | start =>
      let word := words.findSome? fun (word, v) =>
        (Text.dropPrefix? word.toList start).map fun rest => (v, rest)
      word.or (number? start)

/-- The items of a list, its closing bracket included. -/
def items? : Nat → List Char → Option (List Value × List Char)
  | 0, _ => none
  | bound + 1, cs => do
    let (v, rest) ← value? bound cs
    match after? ',' rest with
    | some rest =>
      let (items, rest) ← items? bound rest
      return (v :: items, rest)
    | none => return ([v], ← after? ']' rest)

/-- The entries of a mapping, its closing brace included. -/
def entries? : Nat → List Char → Option (Entries × List Char)
  | 0, _ => none
  | bound + 1, cs => do
    let (key, rest) ← text? (← after? '"' cs)
    let (v, rest) ← value? bound (← after? ':' rest)
    match after? ',' rest with
    | some rest =>
      let (entries, rest) ← entries? bound rest
      return ((.text key, v) :: entries, rest)
    | none => return ([(.text key, v)], ← after? '\x7d' rest)

end

/-- The value of a whole text; nothing but blanks may follow it. Each step of reading passes over a
character, or goes from a part to its value. -/
def read? (s : String) : Option Value := do
  let (v, rest) ← value? (2 * s.length + 2) s.toList
  if rest.all isBlank then return v else none

end PipelineTemplate.JsonText
