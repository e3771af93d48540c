import PipelineTemplate.Expression.Evaluation

/-!
# Expressions inside texts

An expression stands in a text between `$` with two opening braces and two closing ones. Its body is
at least one character long, begins and ends without blanks where it can, and has no line break; it
ends at the first closing braces that allow this.
-/

namespace PipelineTemplate

namespace Embedded

def opening : List Char := ['$', '\x7b', '\x7b']

def closing : List Char := ['\x7d', '\x7d']

/-- The number of characters up to the end of the closing braces, if only blanks stand before them. -/
def closingLength? (cs : List Char) : Option Nat :=
  let blanks := cs.takeWhile Text.isBlank
  if closing.isPrefixOf (cs.dropWhile Text.isBlank) then some (blanks.length + 2) else none

/-- The shortest body that starts here and the number of characters that close it. -/
def body? : List Char → Option (List Char × Nat)
  | [] => none
  | c :: cs =>
    if c = '\n' then none
    else
      match closingLength? cs with
      | some n => some ([c], n)
      | none => (body? cs).map fun (body, n) => (c :: body, n)

/-- The body after the opening and the length of all up to the closing braces. When nothing but blanks
is inside, the last of them is the body. -/
def span? (cs : List Char) : Option (List Char × Nat) :=
  let blanks := cs.takeWhile Text.isBlank
  let rest := cs.dropWhile Text.isBlank
  match body? rest with
  | some (body, n) => some (body, blanks.length + body.length + n)
  | none =>
    if closing.isPrefixOf rest then
      (blanks.reverse.find? (· ≠ '\n')).map fun blank => ([blank], blanks.length + 2)
    else none

/-- A text consists of characters that stand for themselves and bodies of expressions. -/
inductive Piece where
  | char (c : Char)
  | expression (body : String)
  deriving DecidableEq

/-- The pieces of a text; `skip` counts the characters of an expression that are still to be passed
over. -/
def pieces : Nat → List Char → List Piece
  | _, [] => []
  | skip + 1, _ :: cs => pieces skip cs
  | 0, c :: cs =>
    match (Text.dropPrefix? opening (c :: cs)).bind span? with
    | some (body, length) => .expression (String.ofList body) :: pieces (length + 2) cs
    | none => .char c :: pieces 0 cs

end Embedded

/-- The text that a value has in the place of an expression: collections are written as JSON. -/
def Value.embeddedText? (v : Value) : Option String :=
  if v.isMissing then some ""
  else if v.isMapping || v.items?.isSome || v.reference?.isSome then v.toJson?
  else some v.toText

namespace Context

/-- The text of a piece. -/
def pieceText (ctx : Context) : Embedded.Piece → Run (List Char)
  | .char c => return [c]
  | .expression body => do
    match (← ctx.evaluateText body).embeddedText? with
    | some s => return s.toList
    | none => throw .notSerializable

/-- The texts of the pieces, evaluated from left to right. -/
def piecesText (ctx : Context) : List Embedded.Piece → Run (List Char)
  | [] => return []
  | piece :: rest => do
    let s ← ctx.pieceText piece
    return s ++ (← ctx.piecesText rest)

/-- The text with its expressions replaced by their values. -/
def substitute (ctx : Context) (text : String) : Run String := do
  if Text.hasInfix Embedded.opening text.toList then
    return String.ofList (← ctx.piecesText (Embedded.pieces 0 text.toList))
  else return text

/-- A value with the expressions in it replaced if it is a text. -/
def substituteValue (ctx : Context) : Value → Run Value
  | .text s => return .text (← ctx.substitute s)
  | v => return v

end Context

end PipelineTemplate
