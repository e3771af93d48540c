import PipelineTemplate.Expression.Syntax
import PipelineTemplate.Text.Word
import PipelineTemplate.Text.Occurrence

/-!
# Tokens of expressions

The text of an expression is split into tokens from the left, each as long as possible. Blanks, tabs,
form feeds and line breaks may stand between tokens.
-/

namespace PipelineTemplate

/-- Marks that are not operators of two operands. -/
inductive Mark where
  | question | colon | comma | dot | bang
  | openParen | closeParen | openBracket | closeBracket | openBrace | closeBrace
  deriving DecidableEq

inductive Token where
  | number (n : Number.Numeric)
  | text (s : String)
  | name (s : String)
  | mark (m : Mark)
  | binary (op : BinaryOp)
  | logical (op : LogicalOp)
  deriving DecidableEq

/-- A token and the offset at which it starts. -/
structure Lexeme where
  token : Token
  start : Nat
  deriving DecidableEq

namespace Token

/-- The operators and marks; one that begins another stands after it. -/
def symbols : List (List Char × Token) := [
  (['=', '=', '='], .binary .strictEq), (['!', '=', '='], .binary .strictNe),
  (['=', '='], .binary .eq), (['!', '='], .binary .ne),
  (['<', '='], .binary .le), (['>', '='], .binary .ge),
  (['&', '&'], .logical .and), (['|', '|'], .logical .or), (['?', '?'], .logical .coalesce),
  (['<'], .binary .lt), (['>'], .binary .gt), (['+'], .binary .add), (['-'], .binary .sub),
  (['*'], .binary .mul), (['/'], .binary .div), (['%'], .binary .mod),
  (['?'], .mark .question), ([':'], .mark .colon), ([','], .mark .comma), (['.'], .mark .dot),
  (['!'], .mark .bang), (['('], .mark .openParen), ([')'], .mark .closeParen),
  (['['], .mark .openBracket), ([']'], .mark .closeBracket),
  (['\x7b'], .mark .openBrace), (['\x7d'], .mark .closeBrace)]

def readSymbol? (cs : List Char) : Option (Token × List Char) :=
  symbols.findSome? fun (symbol, token) =>
    (Text.dropPrefix? symbol cs).map fun rest => (token, rest)

/-- The fraction after a whole number: a point and at least one digit. -/
def spanFraction : List Char → List Char × List Char
  | '.' :: cs =>
    let (digits, rest) := Text.spanDecimal cs
    if digits = [] then ([], '.' :: cs) else ('.' :: digits, rest)
  | cs => ([], cs)

/-- An exponent part with at least one digit. -/
def spanExponent : List Char → List Char × List Char
  | e :: cs =>
    if e = 'e' ∨ e = 'E' then
      let (sign, unsigned) : List Char × List Char := match cs with
        | '+' :: cs => (['+'], cs)
        | '-' :: cs => (['-'], cs)
        | cs => ([], cs)
      let (digits, rest) := Text.spanDecimal unsigned
      if digits = [] then ([], e :: cs) else (e :: sign ++ digits, rest)
    else ([], e :: cs)
  | [] => ([], [])

/-- A number: an integer, or with a fraction or an exponent a double. -/
def readNumber? (cs : List Char) : Option (Token × List Char) :=
  let (whole, rest) := Text.spanDecimal cs
  if whole = [] then none
  else
    let (fraction, rest) := spanFraction rest
    let (exponent, rest) := spanExponent rest
    if fraction = [] ∧ exponent = [] then some (.number (.int (Text.numeral whole)), rest)
    else
      (Number.readBinary64? (whole ++ fraction ++ exponent)).map fun x =>
        (.number (Number.Numeric.float x).normalize, rest)

/-- The rest of a text in apostrophes; two apostrophes stand for one. When the text does not end, it
ends at the last pair. -/
def readApostrophed? : List Char → Option (List Char × List Char)
  | [] => none
  | '\'' :: '\'' :: cs =>
    match readApostrophed? cs with
    | some (s, rest) => some ('\'' :: s, rest)
    | none => some ([], '\'' :: cs)
  | '\'' :: cs => some ([], cs)
  | c :: cs => (readApostrophed? cs).map fun (s, rest) => (c :: s, rest)

/-- The rest of a text in quotation marks, its escapes as they are written. No escape spans a line
break. -/
def readQuoted? : List Char → Option (List Char × List Char)
  | [] => none
  | '"' :: cs => some ([], cs)
  | '\\' :: c :: cs =>
    if c = '\n' then none else (readQuoted? cs).map fun (s, rest) => ('\\' :: c :: s, rest)
  | '\\' :: [] => none
  | c :: cs => (readQuoted? cs).map fun (s, rest) => (c :: s, rest)

/-- What an escaped character stands for. -/
def escaped : Char → Char
  | 'n' => '\n'
  | 't' => '\t'
  | 'r' => '\r'
  | 'b' => '\x08'
  | 'f' => '\x0c'
  | '0' => '\x00'
  | c => c

/-- Resolves the escapes of a text: a backslash before a character, or before `u` and four
hexadecimal digits. -/
def unescape : List Char → List Char
  | '\\' :: 'u' :: a :: b :: c :: d :: cs =>
    if [a, b, c, d].all Text.isHex then
      Char.ofNat (Text.hexNumeral [a, b, c, d]) :: unescape cs
    else 'u' :: unescape (a :: b :: c :: d :: cs)
  | '\\' :: c :: cs => escaped c :: unescape cs
  | c :: cs => c :: unescape cs
  | [] => []
termination_by cs => cs.length

/-- The token at the beginning of the text. -/
def read? (cs : List Char) : Option (Token × List Char) :=
  match cs with
  | '\'' :: cs => (readApostrophed? cs).map fun (s, rest) => (.text (String.ofList s), rest)
  | '"' :: cs => (readQuoted? cs).map fun (s, rest) => (.text (String.ofList (unescape s)), rest)
  | c :: _ =>
    if Text.isNameStart c then
      some (.name (String.ofList (cs.takeWhile Text.isNameChar)), cs.dropWhile Text.isNameChar)
    else if Text.isDecimal c then readNumber? cs
    else readSymbol? cs
  | [] => none

/-- What may stand between tokens. -/
def isSeparator (c : Char) : Bool :=
  c = ' ' || c = '\t' || c = '\x0c' || c = '\r' || c = '\n'

/-- The tokens of a text and, when it cannot be split to its end, the offset where the splitting
stopped. `offset` is the place of the text in the whole. -/
def lexemes (offset : Nat) (text : List Char) : List Lexeme × Option Nat :=
  let cs := text.dropWhile isSeparator
  let start := offset + (text.length - cs.length)
  if cs = [] then ([], none)
  else
    match read? cs with
    | none => ([], some start)
    | some (token, rest) =>
      if _h : rest.length < text.length then
        let (later, stop) := lexemes (start + (cs.length - rest.length)) rest
        (⟨token, start⟩ :: later, stop)
      else ([], some start)
termination_by text.length

end Token

end PipelineTemplate
