import PipelineTemplate.Number.Binary64
import PipelineTemplate.Text.Digit

/-!
# Decimal notation

Reading a decimal numeral to the nearest double, the fewest digits that read back as a given double,
and the layouts in which such digits are written.
-/

namespace PipelineTemplate.Number

/-- The value `digits * 10 ^ exponent`. -/
structure Decimal where
  digits : Nat
  exponent : Int
  deriving DecidableEq

namespace Decimal

/-- The least power of ten above the value. -/
def magnitude (d : Decimal) : Int := (Nat.toDigits 10 d.digits).length + d.exponent

/-- The double nearest to a decimal. A value far outside the range of doubles is settled by its
magnitude alone. -/
def toBinary64 (negative : Bool) (d : Decimal) : Binary64 :=
  if d.digits = 0 ∨ d.magnitude < -330 then .zero negative
  else if 310 < d.magnitude then .infinite negative
  else .round negative (d.digits * powerOfTen d.exponent.toNat) (powerOfTen (-d.exponent).toNat)

/-- An exponent part: the mark, a sign and digits. Without one the exponent is zero. -/
def readExponent? : List Char → Option Int
  | [] => some 0
  | mark :: cs =>
    if mark = 'e' ∨ mark = 'E' then
      let (negative, digits) : Bool × List Char := match cs with
        | '-' :: cs => (true, cs)
        | '+' :: cs => (false, cs)
        | cs => (false, cs)
      if digits ≠ [] ∧ digits.all Text.isDecimal then
        some (if negative then -(Text.numeral digits : Int) else Text.numeral digits)
      else none
    else none

/-- An unsigned numeral with digits before or after the point and perhaps an exponent. -/
def readUnsigned? (cs : List Char) : Option Decimal :=
  let (whole, rest) := Text.spanDecimal cs
  let (fraction, rest) : List Char × List Char := match rest with
    | '.' :: cs => Text.spanDecimal cs
    | cs => ([], cs)
  if whole = [] ∧ fraction = [] then none
  else (readExponent? rest).map fun exponent =>
    ⟨Text.numeral (whole ++ fraction), exponent - fraction.length⟩

/-- A numeral with an optional sign. -/
def read? : List Char → Option (Bool × Decimal)
  | '-' :: cs => (readUnsigned? cs).map (true, ·)
  | '+' :: cs => (readUnsigned? cs).map (false, ·)
  | cs => (readUnsigned? cs).map (false, ·)

end Decimal

/-- The double that a numeral denotes. -/
def readBinary64? (cs : List Char) : Option Binary64 :=
  (Decimal.read? cs).map fun (negative, d) => d.toBinary64 negative

/-! ## Shortest digits -/

/-- The greatest power of ten that is at most `num / den`, for quotients no smaller than `10 ^ -400`. -/
def decade (num den : Nat) : Int :=
  (Nat.toDigits 10 (num * powerOfTen 400 / den)).length - 401

/-- The two neighbours of `num / den` among the multiples of `10 ^ exponent`, as multiples, the nearer
one first and the even one first when both are equally near. -/
def neighbours (num den : Nat) (exponent : Int) : List Nat :=
  let n := num * powerOfTen (-exponent).toNat
  let d := den * powerOfTen exponent.toNat
  let below := n / d
  if nearestEven n d = below then [below, below + 1] else [below + 1, below]

/-- The decimal without the zeros at its end; `fuel` bounds their number. -/
def dropZeros : Nat → Decimal → Decimal
  | 0, d => d
  | fuel + 1, d =>
    if d.digits ≠ 0 ∧ d.digits % 10 = 0 then dropZeros fuel ⟨d.digits / 10, d.exponent + 1⟩ else d

/-- The decimals of up to seventeen digits next to `num / den`, those with fewer digits first. -/
def candidates (num den : Nat) : List Decimal :=
  (List.range 17).flatMap fun (n : Nat) =>
    (neighbours num den (decade num den - n)).map fun digits => ⟨digits, decade num den - n⟩

/-- The decimal with the fewest digits that reads back as the double nearest to `num / den`. -/
def shortest (num den : Nat) : Decimal :=
  let x := Binary64.round false num den
  let found := (candidates num den).find? fun d => d.toBinary64 false = x
  dropZeros 20 (found.getD ⟨num * powerOfTen 1100 / den, -1100⟩)

/-! ## Layouts -/

/-- How the digits of a double are laid out as text. -/
structure Layout where
  /-- The least decimal exponent written without an exponent part. -/
  positionalFrom : Int := -4
  /-- The least decimal exponent, beyond the former, written with an exponent part. -/
  positionalBelow : Int := 16
  /-- A single digit before an exponent part is followed by a point and a zero. -/
  pointBeforeExponent : Bool := false
  /-- The least number of digits of an exponent. -/
  exponentWidth : Nat := 2
  infinity : String
  nan : String

namespace Layout

/-- The text of the digits whose first stands at the given power of ten. -/
def digits (layout : Layout) (ds : List Char) (exponent : Int) : String :=
  if layout.positionalFrom ≤ exponent ∧ exponent < layout.positionalBelow then
    if exponent < 0 then
      String.ofList ("0.".toList ++ List.replicate (-exponent - 1).toNat '0' ++ ds)
    else
      let whole := exponent.toNat + 1
      let fraction := ds.drop whole
      String.ofList (ds.take whole ++ List.replicate (whole - ds.length) '0' ++ '.' ::
        (if fraction.isEmpty then ['0'] else fraction))
  else
    let mantissa := match ds with
      | [d] => if layout.pointBeforeExponent then [d, '.', '0'] else [d]
      | d :: ds => d :: '.' :: ds
      | [] => []
    String.ofList mantissa ++ "e" ++ (if exponent < 0 then "-" else "+") ++
      Text.padded layout.exponentWidth exponent.natAbs

/-- The text of a double. -/
def render (layout : Layout) (x : Binary64) : String :=
  let sign := if x.isNegative then "-" else ""
  match x with
  | .nan => layout.nan
  | .infinite _ => sign ++ layout.infinity
  | .finite _ mantissa exponent _ =>
    if mantissa = 0 then sign ++ "0.0"
    else
      let d := shortest (mantissa * powerOfTwo exponent.toNat) (powerOfTwo (-exponent).toNat)
      let ds := Nat.toDigits 10 d.digits
      sign ++ layout.digits ds (d.exponent + ds.length - 1)

end Layout

/-- Doubles as they are shown in literals: positional from `0.0001` up to below `10 ^ 16`. -/
def literalLayout : Layout := ⟨-4, 16, false, 2, "inf", "nan"⟩

end PipelineTemplate.Number
