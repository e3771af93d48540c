import PipelineTemplate.Value.Literal
import PipelineTemplate.Text.Blank
import PipelineTemplate.Text.Case

/-!
# Coercions

The loose conversions of the expression language to numbers, texts and truth values. None of them
fails: what cannot be converted becomes NaN, an empty text or truth.
-/

namespace PipelineTemplate

open Number (Numeric)

/-- The text of a double among other text. -/
def Number.Numeric.text : Numeric → String
  | .int n => Text.ofInt n
  | .float .nan => "NaN"
  | .float (.infinite negative) => if negative then "-Infinity" else "Infinity"
  | .float x =>
    match x.toInt? with
    | some n => Text.ofInt n
    | none => Number.literalLayout.render x

/-- A text of nothing but decimal digits, read as a number. A line break may follow the digits. -/
def Text.index? (s : String) : Option Nat :=
  let (digits, rest) := spanDecimal s.toList
  if digits ≠ [] ∧ (rest = [] ∨ rest = ['\n']) then some (numeral digits) else none

/-- The number that a text spells: a decimal or hexadecimal numeral or an infinity, with blanks
around it; a blank text spells zero. -/
def Text.toNumber (s : String) : Numeric :=
  let cs := trim s.toList
  if cs = [] then .int 0
  else
    match Number.readBinary64? cs with
    | some x => (Numeric.float x).normalize
    | none =>
      match cs with
      | '0' :: x :: digits =>
        if (x = 'x' ∨ x = 'X') ∧ digits ≠ [] ∧ digits.all isHex then .int (hexNumeral digits)
        else .float .nan
      | _ =>
        if cs = "Infinity".toList ∨ cs = "+Infinity".toList then .float (.infinite false)
        else if cs = "-Infinity".toList then .float (.infinite true)
        else .float .nan

namespace Value

mutual

/-- The text that a value has when it is spliced into other text. -/
def toText : Value → String
  | .null | .undefined => ""
  | .bool b => if b then "true" else "false"
  | .number n => n.text
  | .text s => s
  | .date d => d.text
  | .time t => t.text "T"
  | .list items | .aliased items _ | .tuple items => Text.join "," (itemTexts items)
  | .map _ | .pairs _ => "[object Object]"
  | .reference template parameters => literal (.reference template parameters)
  | .callable f => literal (.callable f)

def itemTexts : List Value → List String
  | [] => []
  | v :: vs => toText v :: itemTexts vs

end

/-- The number that a value stands for: zero for null and the empty list, one or zero for a truth
value, and the number of its only item for a list of one. -/
def toNumber : Value → Numeric
  | .null => .int 0
  | .bool b => .int (if b then 1 else 0)
  | .number n => n
  | .text s => Text.toNumber s
  | .list [] | .aliased [] _ => .int 0
  | .list [v] | .aliased [v] _ => Text.toNumber v.toText
  | _ => .float .nan

/-- Missing values, false, zero, NaN and the texts that are empty or spell false are not true; all
else is. -/
def isTrue : Value → Bool
  | .null | .undefined => false
  | .bool b => b
  | .number n => !n.isZero && !n.isNaN
  | .text s =>
    let small := Text.lower s
    small == "true" || !(small == "false" || small == "")
  | _ => true

/-- The elements that a loop over the value visits: the items of a list, and for a mapping one
mapping of key and value for each entry. -/
def elements (v : Value) : List Value :=
  match v.items? with
  | some items => items
  | none =>
    ((v.entries?).getD []).map fun (key, value) =>
      .map [(.text "key", key), (.text "value", value)]

end Value

end PipelineTemplate
