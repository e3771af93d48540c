import PipelineTemplate.Text.DigitTable

/-!
# Digits

A decimal digit of any script has its value from zero to nine, and a run of them is read as a number
whatever scripts it mixes.
-/

namespace PipelineTemplate.Text

/-- The value of a decimal digit. -/
def decimalValue? (c : Char) : Option Nat :=
  if c.toNat < 0x80 then
    if '0' ≤ c && c ≤ '9' then some (c.toNat - 48) else none
  else
    (decimalZeros.find? fun start => start ≤ c.toNat && c.toNat < start + 10).map (c.toNat - ·)

def isDecimal (c : Char) : Bool := (decimalValue? c).isSome

/-- Decimal digits and the digits that stand outside the decimal runs, such as superscripts. -/
def isDigit (c : Char) : Bool := isDecimal c || nonDecimalDigits.contains c

/-- The number that a run of decimal digits spells. -/
def numeral (cs : List Char) : Nat :=
  cs.foldl (fun n c => 10 * n + (decimalValue? c).getD 0) 0

/-- The leading decimal digits and what follows them. -/
def spanDecimal (cs : List Char) : List Char × List Char := cs.span isDecimal

def hexValue? (c : Char) : Option Nat :=
  if '0' ≤ c && c ≤ '9' then some (c.toNat - 48)
  else if 'a' ≤ c && c ≤ 'f' then some (c.toNat - 87)
  else if 'A' ≤ c && c ≤ 'F' then some (c.toNat - 55)
  else none

def isHex (c : Char) : Bool := (hexValue? c).isSome

/-- The number that a run of hexadecimal digits spells. -/
def hexNumeral (cs : List Char) : Nat :=
  cs.foldl (fun n c => 16 * n + (hexValue? c).getD 0) 0

/-- The digits zero to nine of the plain Latin script. -/
def isPlainDigit (c : Char) : Bool := '0' ≤ c && c ≤ '9'

/-- A whole number in decimal digits. -/
def ofNat (n : Nat) : String := String.ofList (Nat.toDigits 10 n)

def ofInt (n : Int) : String := if n < 0 then "-" ++ ofNat n.natAbs else ofNat n.natAbs

/-- A whole number with zeros in front up to the given width. -/
def padded (width n : Nat) : String :=
  let digits := Nat.toDigits 10 n
  String.ofList (List.replicate (width - digits.length) '0' ++ digits)

end PipelineTemplate.Text
