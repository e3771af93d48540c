import PipelineTemplate.Context
import PipelineTemplate.Expression.Function
import PipelineTemplate.Expression.Grammar

/-!
# Evaluation

The value of an expression in a context. Names that are not known, members that are not there and
unknown functions lead to undefined or null and never to a failure; a text that is no expression is
read as a path of members, and failing that may stand for itself.
-/

namespace PipelineTemplate

open Number (Numeric)

namespace UnaryOp

def apply (op : UnaryOp) (v : Value) : Value :=
  match op with
  | .not => .bool !v.isTrue
  | .neg => .number v.toNumber.neg.normalize
  | .plus => .number v.toNumber.normalize

end UnaryOp

namespace BinaryOp

/-- The test that a comparison makes of an order. -/
def test? : BinaryOp → Option (Ordering → Bool)
  | .eq | .strictEq => some (· == .eq)
  | .ne | .strictNe => some (· != .eq)
  | .lt => some (· == .lt)
  | .le => some (· != .gt)
  | .gt => some (· == .gt)
  | .ge => some (· != .lt)
  | _ => none

/-- The number that an operand counts for; what is not a number counts as zero. -/
def operand (v : Value) : Numeric :=
  if v.toNumber.isNaN then .int 0 else v.toNumber

/-- Arithmetic; nothing is the value of a division by zero. -/
def arithmetic (op : BinaryOp) (a b : Numeric) : Except Numeric.Undefined (Option Numeric) :=
  match op with
  | .add => (a.add b).map some
  | .sub => (a.sub b).map some
  | .mul => (a.mul b).map some
  | .div => if b.isZero then .ok none else (a.div b).map some
  | .mod => if b.isZero then .ok none else (a.rem b).map some
  | _ => .ok none

def apply (op : BinaryOp) (left right : Value) : Except Failure Value :=
  match op.test? with
  | some test => .ok (.bool (test (left.compare right)))
  | none =>
    if op = .add ∧ (left.isText ∨ right.isText) then .ok (.text (left.toText ++ right.toText))
    else
      match op.arithmetic (operand left) (operand right) with
      | .ok (some n) => .ok (.number n.normalize)
      | .ok none => .ok .null
      | .error cause => .error (.arithmetic cause)

end BinaryOp

namespace LogicalOp

/-- Whether the left operand is already the value. -/
def settles (op : LogicalOp) (left : Value) : Bool :=
  match op with
  | .and => !left.isTrue
  | .or => left.isTrue
  | .coalesce => !left.isMissing

end LogicalOp

/-- The constants, in any letter case. -/
def constant? (name : String) : Option Value :=
  match Text.lower name with
  | "true" => some (.bool true)
  | "false" => some (.bool false)
  | "null" => some .null
  | "undefined" => some .undefined
  | _ => none

/-- The value of a name: a constant, a local, a parameter, a variable or one of the roots. -/
def Context.resolveName (ctx : Context) (name : String) : Value :=
  ((constant? name).or <|
    (ctx.locals.get? (.text name)).or <|
    (ctx.parameters.get? (.text name)).or <|
    (ctx.variableValues.get? (.text name)).or (ctx.root? name)).getD .undefined

/-- Calls a function that is a value. Nothing is its result if it fails, which the journal notes. -/
def Callable.invoke (f : Callable) (name : String) (arguments : List Value) : Run Value :=
  let failed (reason : String) : Run Value := do
    Run.report .debug .evaluation "expression_callable_failed"
      [("function", .text name), ("error", .text reason)]
    return .undefined
  match f with
  | .arguments => return .list arguments
  | .custom => return .text "custom"
  | .failing => failed "boom"
  | .first =>
    match arguments with
    | [v] => return v
    | [] => failed "first() missing 1 required positional argument: 'x'"
    | _ =>
      failed ("first() takes 1 positional argument but " ++ Text.ofNat arguments.length ++
        " were given")

namespace Expr

/-- Calls what a name or a member stands for if it is a function, and else the function of that
name. -/
def callValue (name : String) (v : Value) (arguments : List Value) : Run Value :=
  match v with
  | .callable f => f.invoke name arguments
  | _ => Builtin.callNamed name arguments

mutual

def evaluate (ctx : Context) : Expr → Run Value
  | .literal v => return v
  | .name s => return ctx.resolveName s
  | .member target s => do
    let v ← evaluate ctx target
    return if v.isMissing then .undefined else v.member (.text s)
  | .index target key => do
    let v ← evaluate ctx target
    if v.isMissing then return .undefined
    return v.member (← evaluate ctx key)
  | .unary op argument => return op.apply (← evaluate ctx argument)
  | .binary op left right => do
    let a ← evaluate ctx left
    let b ← evaluate ctx right
    ExceptT.mk (pure (op.apply a b))
  | .logical op left right => do
    let a ← evaluate ctx left
    if op.settles a then return a else evaluate ctx right
  | .conditional test yes no => do
    if (← evaluate ctx test).isTrue then evaluate ctx yes else evaluate ctx no
  | .array elements => return .list (← evaluateAll ctx elements)
  | .object properties => return .map (Entries.ofPairs (← evaluateProperties ctx properties))
  | .call callee arguments => do
    let values ← evaluateAll ctx arguments
    match callee with
    | .name s => callValue s (ctx.resolveName s) values
    | .member target s => do
      let v ← evaluate ctx target
      if v.isMissing then return .undefined
      callValue s (v.member (.text s)) values
    | .index target key => do
      let v ← evaluate ctx target
      if v.isMissing then return .undefined
      let k ← evaluate ctx key
      if k.isMissing then return .undefined
      callValue k.toText (v.member k) values
    | callee => do
      match ← evaluate ctx callee with
      | .callable f => f.invoke "<anonymous>" values
      | _ => return .undefined

def evaluateAll (ctx : Context) : List Expr → Run (List Value)
  | [] => return []
  | e :: es => do
    let v ← evaluate ctx e
    return v :: (← evaluateAll ctx es)

def evaluateProperties (ctx : Context) : List (Value × Expr) → Run Entries
  | [] => return []
  | (key, e) :: rest => do
    let v ← evaluate ctx e
    return (.text key.toText, v) :: (← evaluateProperties ctx rest)

end

/-- The reading of a text. That it cannot be read is noted in the journal. -/
def reading (text : String) : Run (Option Expr) :=
  match parse text with
  | .ok e => return some e
  | .error error => do
    Run.report .debug .evaluation "expression_parse_fallback"
      [("expression", .text text), ("error", .text error.message)]
    return none

/-- The reading of a text, remembered in the session. -/
def remembered (text : String) : Run (Option Expr) := do
  match (← get).expressions.lookup text with
  | some reading => return reading
  | none =>
    let reading ← reading text
    modify fun s => { s with expressions := (text, reading) :: s.expressions }
    return reading

end Expr

/-! ## Paths of members -/

/-- Writes a number in brackets as a member after a point; `skip` counts the characters that are still
to be passed over. -/
def pointIndexes : Nat → List Char → List Char
  | _, [] => []
  | skip + 1, _ :: cs => pointIndexes skip cs
  | 0, c :: cs =>
    if c = '[' then
      let (digits, rest) := Text.spanDecimal cs
      match rest with
      | ']' :: _ =>
        if digits = [] then c :: pointIndexes 0 cs
        else '.' :: digits ++ pointIndexes (digits.length + 1) cs
      | _ => c :: pointIndexes 0 cs
    else c :: pointIndexes 0 cs

def isQuote (c : Char) : Bool := c = '\'' || c = '"'

/-- Writes a quoted key in brackets as a member after a point. -/
def pointKeys : Nat → List Char → List Char
  | _, [] => []
  | skip + 1, _ :: cs => pointKeys skip cs
  | 0, c :: cs =>
    match c, cs with
    | '[', q :: rest =>
      let key := rest.takeWhile fun c => !isQuote c
      match rest.dropWhile fun c => !isQuote c with
      | _ :: ']' :: _ =>
        if isQuote q ∧ key ≠ [] then '.' :: key ++ pointKeys (key.length + 3) cs
        else c :: pointKeys 0 cs
      | _ => c :: pointKeys 0 cs
    | _, _ => c :: pointKeys 0 cs

/-- The names along a path. -/
def pathSegments (text : String) : List String :=
  ((Text.split ['.'] (pointKeys 0 (pointIndexes 0 text.toList))).filter (· ≠ [])).map String.ofList

/-- The value at the end of a path; a local hides a root, and a root a parameter or variable. -/
def Context.resolvePath (ctx : Context) (text : String) : Value :=
  match pathSegments text with
  | [] => .undefined
  | first :: rest =>
    let start := ((ctx.locals.get? (.text first)).or <|
      (ctx.root? first).or <|
      (ctx.parameters.get? (.text first)).or (ctx.variableValues.get? (.text first))).getD .undefined
    rest.foldl (fun v segment => v.member (.text segment)) start

/-- Whether a text begins like a path: a name and then a point or a bracket. -/
def looksLikePath (text : String) : Bool :=
  match text.toList with
  | c :: cs =>
    Text.isNameStart c && match cs.dropWhile Text.isWordChar with
      | '.' :: _ | '[' :: _ => true
      | _ => false
  | [] => false

namespace Context

/-- The value of the text of an expression. A text that cannot be read is a path, or else the text
itself unless it looks like a path. -/
def evaluateText (ctx : Context) (text : String) : Run Value := do
  let trimmed := Text.strip text
  if trimmed = "" then return .undefined
  match ← Expr.remembered trimmed with
  | some e => e.evaluate ctx
  | none =>
    match ctx.resolvePath trimmed with
    | .undefined => return if looksLikePath trimmed then .undefined else .text trimmed
    | v => return v

/-- The value of an expression given as a value, by its text. -/
def evaluateValue (ctx : Context) (v : Value) : Run Value := ctx.evaluateText v.toText

end Context

end PipelineTemplate
