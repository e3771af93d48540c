import PipelineTemplate.Number.Decimal
import PipelineTemplate.Text.Blank
import PipelineTemplate.Text.Case

/-!
# Numerals with grouping

Whole numbers in a base up to sixteen and doubles, in the form that tagged scalars take: blanks around
them, a sign, digits of any script, single low lines between digits, and for whole numbers a mark of the
base before the digits.
-/

namespace PipelineTemplate.Number

/-- The value of a digit in bases beyond ten. -/
def digitValue? (c : Char) : Option Nat :=
  match Text.decimalValue? c with
  | some n => some n
  | none => Text.hexValue? c

/-- The number that digits in a base spell, with single low lines between them. -/
def groupedNumeral? (base : Nat) : Nat → List Char → Option Nat
  | _, [] => none
  | n, [c] => do
    let d ← digitValue? c
    if d < base then some (base * n + d) else none
  | n, c :: '_' :: cs => do
    let d ← digitValue? c
    if d < base then groupedNumeral? base (base * n + d) cs else none
  | n, c :: cs => do
    let d ← digitValue? c
    if d < base then groupedNumeral? base (base * n + d) cs else none

/-- The letter that marks a base. -/
def baseLetter? (base : Nat) : Option Char :=
  if base = 16 then some 'x' else if base = 8 then some 'o' else if base = 2 then some 'b' else none

/-- A whole number in a base. -/
def readWhole? (base : Nat) (cs : List Char) : Option Int :=
  let digits (cs : List Char) : Option Nat :=
    match cs with
    | '0' :: mark :: rest =>
      if (baseLetter? base).any fun letter => mark = letter || mark = letter.toUpper then
        groupedNumeral? base 0 (if rest.head? = some '_' then rest.tail else rest)
      else groupedNumeral? base 0 cs
    | _ => groupedNumeral? base 0 cs
  match Text.trim cs with
  | '-' :: cs => (digits cs).map fun n => -(n : Int)
  | '+' :: cs => (digits cs).map fun n => (n : Int)
  | cs => (digits cs).map fun n => (n : Int)

/-- A double: a numeral, an infinity or no number, with blanks around it. -/
def readDouble? (cs : List Char) : Option Binary64 :=
  let cs := Text.trim cs
  let (negative, word) : Bool × List Char := match cs with
    | '-' :: cs => (true, cs)
    | '+' :: cs => (false, cs)
    | cs => (false, cs)
  let word := Text.lower (String.ofList word)
  if word = "inf" ∨ word = "infinity" then some (.infinite negative)
  else if word = "nan" then some .nan
  else readBinary64? cs

end PipelineTemplate.Number
