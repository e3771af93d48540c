import PipelineTemplate.Value.Coercion

/-!
# Comparison

The three-way comparison of the expression language. Each operand is read on its own first: a missing
value as the empty text, a text as the truth value or number that it spells. Two numbers or two truth
values are compared by value, all else by text.
-/

namespace PipelineTemplate

/-- A text of digits with an optional minus and an optional fraction. -/
def Text.isPlainNumeral (cs : List Char) : Bool :=
  let unsigned := match cs with
    | '-' :: cs => cs
    | cs => cs
  let (whole, rest) := spanDecimal unsigned
  whole ≠ [] && match rest with
    | [] => true
    | '.' :: fraction => fraction ≠ [] && fraction.all isDecimal
    | _ => false

namespace Value

/-- The reading of an operand. -/
def comparand : Value → Value
  | .null | .undefined => .text ""
  | .text s =>
    let cs := Text.trim s.toList
    let small := Text.lower (String.ofList cs)
    if small = "true" then .bool true
    else if small = "false" then .bool false
    else if Text.isPlainNumeral cs then .number (Text.toNumber (String.ofList cs))
    else .text (String.ofList cs)
  | v => v

/-- Equality without coercion. Other than missing values, truth values, numbers, texts and the empty
tuple, nothing equals a value but itself. -/
def strictEqual : Value → Value → Bool
  | .null, .null | .undefined, .undefined => true
  | .bool a, .bool b => a == b
  | .number m, .number n => m.eq n
  | .text s, .text t => s == t
  | .tuple [], .tuple [] => true
  | _, _ => false

/-- Whether a value is strictly equal to itself: all are but NaN. -/
def equalsItself : Value → Bool
  | .number n => n.eq n
  | _ => true

def compare (left right : Value) : Ordering :=
  let a := left.comparand
  let b := right.comparand
  if a.strictEqual b then .eq
  else
    match a, b with
    | .number m, .number n => if n.lt m then .gt else .lt
    | .bool p, .bool _ => if p then .gt else .lt
    | a, b =>
      let s := a.toText
      let t := b.toText
      if s = t then .eq else if t < s then .gt else .lt

end Value

end PipelineTemplate
