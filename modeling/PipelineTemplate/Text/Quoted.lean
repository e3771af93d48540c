import PipelineTemplate.Text.PrintableTable
import PipelineTemplate.Text.Digit

/-!
# Quoted text

The literal that shows a text in messages: in apostrophes, or in quotation marks when the text has
apostrophes and no quotation mark, with escapes for what cannot be printed.
-/

namespace PipelineTemplate.Text

def isPrintable (c : Char) : Bool := printableCharacters.contains c

/-- A number in hexadecimal digits with zeros in front up to the given width. -/
def hexPadded (width n : Nat) : List Char :=
  let digits := Nat.toDigits 16 n
  List.replicate (width - digits.length) '0' ++ digits

/-- One character of a quoted text. -/
def quotedChar (quote c : Char) : List Char :=
  if c = quote ∨ c = '\\' then ['\\', c]
  else if c = '\t' then ['\\', 't']
  else if c = '\n' then ['\\', 'n']
  else if c = '\r' then ['\\', 'r']
  else if isPrintable c then [c]
  else if c.toNat ≤ 0xFF then '\\' :: 'x' :: hexPadded 2 c.toNat
  else if c.toNat ≤ 0xFFFF then '\\' :: 'u' :: hexPadded 4 c.toNat
  else '\\' :: 'U' :: hexPadded 8 c.toNat

def quoted (s : String) : String :=
  let cs := s.toList
  let quote := if '\'' ∈ cs ∧ '"' ∉ cs then '"' else '\''
  String.ofList (quote :: cs.flatMap (quotedChar quote) ++ [quote])

end PipelineTemplate.Text
