import PipelineTemplate.Expression.Token
import PipelineTemplate.Text.Blank

/-!
# Reading expressions

A descent through the levels of precedence: the conditional binds least, then `??`, `||`, `&&`,
equality, order, sums, products, the unary operators and, most tightly, member access and calls. The
binary operators associate to the left. Each reader returns what follows its expression, with the
proof that it is shorter; a reader fails at the first token that no expression could continue with.
-/

namespace PipelineTemplate

/-- Where a text stops being an expression. -/
inductive Unexpected where
  | at (offset : Nat)
  | atEnd
  deriving DecidableEq

/-- What was read, and the lexemes that follow. -/
abbrev Parsed (α : Type) (before : List Lexeme) :=
  Except Unexpected (α × { rest : List Lexeme // rest.length < before.length })

/-- The failure at the next lexeme. -/
def unexpected : List Lexeme → Unexpected
  | [] => .atEnd
  | lexeme :: _ => .at lexeme.start

/-- The failure where an operand should start. An inequality sign is a negation there, so that the
failure is at its second character. -/
def unexpectedOperand : List Lexeme → Unexpected
  | ⟨.binary .ne, start⟩ :: _ | ⟨.binary .strictNe, start⟩ :: _ => .at (start + 1)
  | lexemes => unexpected lexemes

namespace Expr

/-- The level of a binary operator and the expression that it makes. -/
def operator? : Token → Option (Nat × (Expr → Expr → Expr))
  | .logical .coalesce => some (0, .logical .coalesce)
  | .logical .or => some (1, .logical .or)
  | .logical .and => some (2, .logical .and)
  | .binary op => some (
      match op with
      | .eq | .strictEq | .ne | .strictNe => 3
      | .lt | .le | .gt | .ge => 4
      | .add | .sub => 5
      | .mul | .div | .mod => 6, .binary op)
  | _ => none

/-- The operators of one level. -/
def operatorAt? (level : Nat) (token : Token) : Option (Expr → Expr → Expr) :=
  match operator? token with
  | some (l, make) => if l = level then some make else none
  | none => none

/-- The unary operator that a token is where an operand should start. -/
def unaryOperator? : Token → Option UnaryOp
  | .mark .bang => some .not
  | .binary .sub => some .neg
  | .binary .add => some .plus
  | _ => none

/-- The key of a property: a name, a text or a number. -/
def propertyKey? : Token → Option Value
  | .name s | .text s => some (.text s)
  | .number n => some (.number n)
  | _ => none

mutual

/-- A whole expression, perhaps a conditional one. -/
def expression (ls : List Lexeme) : Parsed Expr ls := do
  let (test, ⟨rest, h⟩) ← operation 0 ls
  match rest, h with
  | ⟨.mark .question, _⟩ :: rest, h => do
    let (yes, ⟨rest₁, h₁⟩) ← expression rest
    match rest₁, h₁ with
    | ⟨.mark .colon, _⟩ :: rest₁, h₁ => do
      let (no, ⟨rest₂, h₂⟩) ← expression rest₁
      return (.conditional test yes no, ⟨rest₂, by simp only [List.length_cons] at h h₁; omega⟩)
    | rest₁, _ => throw (unexpected rest₁)
  | rest, h => return (test, ⟨rest, h⟩)
termination_by (ls.length, 12)
decreasing_by
  · exact Prod.Lex.right _ (by omega)
  · simp only [List.length_cons] at h; exact Prod.Lex.left _ _ (by omega)
  · simp only [List.length_cons] at h h₁; exact Prod.Lex.left _ _ (by omega)

/-- Operands of the tighter levels joined by operators of the given level. -/
def operation (level : Nat) (ls : List Lexeme) : Parsed Expr ls :=
  if 7 ≤ level then unaryOperation ls
  else do
    let (left, ⟨rest, h⟩) ← operation (level + 1) ls
    let (whole, ⟨rest₁, h₁⟩) ← continued level left rest
    return (whole, ⟨rest₁, by omega⟩)
termination_by (ls.length, 3 + (7 - level))
decreasing_by
  · exact Prod.Lex.right _ (by omega)
  · exact Prod.Lex.right _ (by omega)
  · exact Prod.Lex.left _ _ (by omega)

/-- Further operands after the left one. -/
def continued (level : Nat) (left : Expr) (ls : List Lexeme) :
    Except Unexpected (Expr × { rest : List Lexeme // rest.length ≤ ls.length }) :=
  match ls with
  | [] => .ok (left, ⟨[], by simp⟩)
  | lexeme :: rest =>
    match operatorAt? level lexeme.token with
    | none => .ok (left, ⟨lexeme :: rest, by simp⟩)
    | some make => do
      let (right, ⟨rest₁, h₁⟩) ← operation (level + 1) rest
      let (whole, ⟨rest₂, h₂⟩) ← continued level (make left right) rest₁
      return (whole, ⟨rest₂, by simp only [List.length_cons]; omega⟩)
termination_by (ls.length, 11)
decreasing_by
  · exact Prod.Lex.left _ _ (by simp)
  · exact Prod.Lex.left _ _ (by simp only [List.length_cons]; omega)

/-- An operand with its unary operators. -/
def unaryOperation (ls : List Lexeme) : Parsed Expr ls :=
  match ls with
  | [] => .error .atEnd
  | lexeme :: rest =>
    match unaryOperator? lexeme.token with
    | some op => do
      let (argument, ⟨rest₁, h₁⟩) ← unaryOperation rest
      return (.unary op argument, ⟨rest₁, by simp only [List.length_cons]; omega⟩)
    | none => do
      let (base, ⟨rest₁, h₁⟩) ← atom (lexeme :: rest)
      let (whole, ⟨rest₂, h₂⟩) ← accessed base rest₁
      return (whole, ⟨rest₂, by omega⟩)
termination_by (ls.length, 2)
decreasing_by
  · exact Prod.Lex.left _ _ (by simp)
  · exact Prod.Lex.right _ (by omega)
  · exact Prod.Lex.left _ _ (by omega)

/-- Member access and calls after an operand. -/
def accessed (base : Expr) (ls : List Lexeme) :
    Except Unexpected (Expr × { rest : List Lexeme // rest.length ≤ ls.length }) :=
  match ls with
  | ⟨.mark .dot, _⟩ :: ⟨.name s, _⟩ :: rest => do
    let (whole, ⟨rest₁, h₁⟩) ← accessed (.member base s) rest
    return (whole, ⟨rest₁, by simp only [List.length_cons]; omega⟩)
  | ⟨.mark .dot, _⟩ :: rest => .error (unexpected rest)
  | ⟨.mark .openBracket, _⟩ :: rest => do
    let (key, ⟨rest₁, h₁⟩) ← expression rest
    match rest₁, h₁ with
    | ⟨.mark .closeBracket, _⟩ :: rest₁, h₁ => do
      let (whole, ⟨rest₂, h₂⟩) ← accessed (.index base key) rest₁
      return (whole, ⟨rest₂, by simp only [List.length_cons] at h₁ ⊢; omega⟩)
    | rest₁, _ => throw (unexpected rest₁)
  | ⟨.mark .openParen, _⟩ :: rest => do
    let (values, ⟨rest₁, h₁⟩) ← arguments .closeParen rest
    let (whole, ⟨rest₂, h₂⟩) ← accessed (.call base values) rest₁
    return (whole, ⟨rest₂, by simp only [List.length_cons]; omega⟩)
  | rest => .ok (base, ⟨rest, by simp⟩)
termination_by (ls.length, 1)
decreasing_by
  · exact Prod.Lex.left _ _ (by simp only [List.length_cons]; omega)
  · exact Prod.Lex.left _ _ (by simp only [List.length_cons]; omega)
  · simp only [List.length_cons] at h₁; exact Prod.Lex.left _ _ (by simp only [List.length_cons]; omega)
  · exact Prod.Lex.left _ _ (by simp only [List.length_cons]; omega)
  · exact Prod.Lex.left _ _ (by simp only [List.length_cons]; omega)

/-- An operand without operators. -/
def atom (ls : List Lexeme) : Parsed Expr ls :=
  match ls with
  | ⟨.number n, _⟩ :: rest => .ok (.literal (.number n), ⟨rest, by simp⟩)
  | ⟨.text s, _⟩ :: rest => .ok (.literal (.text s), ⟨rest, by simp⟩)
  | ⟨.name s, _⟩ :: rest => .ok (.name s, ⟨rest, by simp⟩)
  | ⟨.mark .openBracket, _⟩ :: rest => do
    let (elements, ⟨rest₁, h₁⟩) ← arguments .closeBracket rest
    return (.array elements, ⟨rest₁, by simp only [List.length_cons]; omega⟩)
  | ⟨.mark .openBrace, _⟩ :: ⟨.mark .closeBrace, _⟩ :: rest =>
    .ok (.object [], ⟨rest, by simp only [List.length_cons]; omega⟩)
  | ⟨.mark .openBrace, _⟩ :: rest => do
    let (entries, ⟨rest₁, h₁⟩) ← properties rest
    return (.object entries, ⟨rest₁, by simp only [List.length_cons]; omega⟩)
  | ⟨.mark .openParen, _⟩ :: rest => do
    let (inner, ⟨rest₁, h₁⟩) ← expression rest
    match rest₁, h₁ with
    | ⟨.mark .closeParen, _⟩ :: rest₁, h₁ =>
      return (inner, ⟨rest₁, by simp only [List.length_cons] at h₁ ⊢; omega⟩)
    | rest₁, _ => throw (unexpected rest₁)
  | rest => .error (unexpectedOperand rest)
termination_by (ls.length, 0)
decreasing_by all_goals exact Prod.Lex.left _ _ (by simp only [List.length_cons]; omega)

/-- Expressions between commas up to a closing mark; there may be none. -/
def arguments (closing : Mark) (ls : List Lexeme) : Parsed (List Expr) ls :=
  match ls with
  | [] => .error .atEnd
  | lexeme :: rest =>
    if lexeme.token = .mark closing then .ok ([], ⟨rest, by simp⟩)
    else do
      let (first, ⟨rest₁, h₁⟩) ← expression (lexeme :: rest)
      let (later, ⟨rest₂, h₂⟩) ← moreArguments closing rest₁
      return (first :: later, ⟨rest₂, by omega⟩)
termination_by (ls.length, 13)
decreasing_by
  · exact Prod.Lex.right _ (by omega)
  · exact Prod.Lex.left _ _ (by omega)

/-- What follows an argument: a comma and another one, or the closing mark. -/
def moreArguments (closing : Mark) (ls : List Lexeme) : Parsed (List Expr) ls :=
  match ls with
  | [] => .error .atEnd
  | lexeme :: rest =>
    if lexeme.token = .mark closing then .ok ([], ⟨rest, by simp⟩)
    else if lexeme.token = .mark .comma then do
      let (next, ⟨rest₁, h₁⟩) ← expression rest
      let (later, ⟨rest₂, h₂⟩) ← moreArguments closing rest₁
      return (next :: later, ⟨rest₂, by simp only [List.length_cons]; omega⟩)
    else .error (.at lexeme.start)
termination_by (ls.length, 13)
decreasing_by all_goals exact Prod.Lex.left _ _ (by simp only [List.length_cons]; omega)

/-- The properties of an object up to its closing brace; there is at least one. -/
def properties (ls : List Lexeme) : Parsed (List (Value × Expr)) ls :=
  match ls with
  | [] => .error .atEnd
  | lexeme :: rest =>
    match propertyKey? lexeme.token with
    | none => .error (.at lexeme.start)
    | some key =>
      match rest with
      | ⟨.mark .colon, _⟩ :: rest => do
        let (value, ⟨rest₁, h₁⟩) ← expression rest
        match rest₁, h₁ with
        | ⟨.mark .closeBrace, _⟩ :: rest₁, h₁ =>
          return ([(key, value)], ⟨rest₁, by simp only [List.length_cons] at h₁ ⊢; omega⟩)
        | ⟨.mark .comma, _⟩ :: rest₁, h₁ => do
          let (later, ⟨rest₂, h₂⟩) ← properties rest₁
          return ((key, value) :: later,
            ⟨rest₂, by simp only [List.length_cons] at h₁ ⊢; omega⟩)
        | rest₁, _ => throw (unexpected rest₁)
      | rest => .error (unexpected rest)
termination_by (ls.length, 13)
decreasing_by
  · exact Prod.Lex.left _ _ (by simp only [List.length_cons]; omega)
  · simp only [List.length_cons] at h₁; exact Prod.Lex.left _ _ (by simp only [List.length_cons]; omega)

end

end Expr

/-- Why a text is no expression. -/
inductive SyntaxError where
  /-- The text has nothing but blanks. -/
  | empty (text : String)
  /-- The offset in the trimmed text at which no expression continues. -/
  | invalid (text : String) (position : Nat)
  deriving DecidableEq

namespace SyntaxError

/-- The text that failed, trimmed unless it is empty. -/
def expression : SyntaxError → String
  | .empty text | .invalid text _ => text

def position : SyntaxError → Nat
  | .empty _ => 0
  | .invalid _ position => position

/-- The message points at the place in a line of its own, unless that is the beginning. -/
def message : SyntaxError → String
  | .empty text => "Empty expression: " ++ text
  | .invalid text position =>
    if position = 0 ∨ text = "" then "Invalid expression syntax: " ++ text
    else
      "Invalid expression syntax at position " ++ Text.ofNat position ++ ":\n" ++ text ++ "\n" ++
        String.ofList (List.replicate position ' ') ++ "^"

end SyntaxError

/-- Reads the text of an expression. A text that ends too early fails at its last token. -/
def Expr.parse (text : String) : Except SyntaxError Expr :=
  let cs := Text.trim text.toList
  if cs = [] then .error (.empty text)
  else
    let (ls, stop) := Token.lexemes 0 cs
    let fail (offset : Nat) := Except.error (SyntaxError.invalid (String.ofList cs) offset)
    let atEnd := stop.getD ((ls.getLast?.map Lexeme.start).getD 0)
    match Expr.expression ls with
    | .error (.at offset) => fail offset
    | .error .atEnd => fail atEnd
    | .ok (_, ⟨lexeme :: _, _⟩) => fail lexeme.start
    | .ok (e, ⟨[], _⟩) => if stop.isSome then fail atEnd else .ok e

end PipelineTemplate
