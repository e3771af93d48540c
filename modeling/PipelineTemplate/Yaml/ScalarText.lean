import PipelineTemplate.Text.Quoted
import PipelineTemplate.Yaml.Schema

/-!
# Writing scalars

A text with line breaks becomes a literal block, or is written between quotation marks when no block can
hold it. Any other scalar is plain if it is read back with the same tag; otherwise it stands between
apostrophes, or between quotation marks if it needs escapes. Lines are never folded.
-/

namespace PipelineTemplate.Yaml

/-- A written part of a document. -/
structure Written where
  text : List Char
  /-- The text ends at the beginning of a line. -/
  endsLine : Bool := false
  /-- The end of the last scalar is not visible, so that the end of the document has to be marked. -/
  isOpen : Bool := false

namespace ScalarText

def isLineBreak (c : Char) : Bool := c = '\n' || c = '\x85' || c = '\u2028' || c = '\u2029'

/-- The characters that separate words. -/
def isSpace (c : Char) : Bool := c = '\x00' || c = ' ' || c = '\t' || c = '\r' || isLineBreak c

/-- The characters that stand for themselves outside of quotation marks. -/
def isOrdinary (c : Char) : Bool :=
  let n := c.toNat
  n = 10 || (0x20 ≤ n && n ≤ 0x7E) || n = 0x85 || (0xA0 ≤ n && n ≤ 0xD7FF) ||
    (0xE000 ≤ n && n ≤ 0xFFFD && n ≠ 0xFEFF) || (0x10000 ≤ n && n < 0x10FFFF)

/-- Whether a character of one kind is followed by one of another. -/
def hasPair (first second : Char → Bool) : List Char → Bool
  | c :: d :: rest => (first c && second d) || hasPair first second (d :: rest)
  | _ => false

/-- Whether no word follows. -/
def beforeSpace (rest : List Char) : Bool := rest.head?.all isSpace

/-- Whether the start of the text would be taken for an indicator. -/
def beginsWithIndicator : List Char → Bool
  | [] => false
  | c :: rest =>
    ['-', '-', '-'].isPrefixOf (c :: rest) || ['.', '.', '.'].isPrefixOf (c :: rest) ||
      c ∈ "#,[]\x7b\x7d&*!|>'\"%@`".toList || (c ∈ ['?', ':', '-'] && beforeSpace rest)

/-- Whether a colon at the end of a word would be taken for the end of a key, or a number sign before
one for a comment. -/
def hasIndicator (cs : List Char) : Bool :=
  beginsWithIndicator cs || hasPair (· = ':') isSpace cs || hasPair isSpace (· = '#') cs ||
    cs.getLast? = some ':'

/-- Whether blanks or breaks at an end of the text would be lost. -/
def hasLooseEnd (cs : List Char) : Bool :=
  let loose (c : Char) := c = ' ' || isLineBreak c
  cs.head?.any loose || cs.getLast?.any loose

/-- Whether the text needs escapes, also because a break after a space would be lost. -/
def needsEscapes (cs : List Char) : Bool :=
  !cs.all isOrdinary || hasPair (· = ' ') isLineBreak cs

def allowsPlain (cs : List Char) : Bool :=
  !(hasLooseEnd cs || hasIndicator cs || needsEscapes cs || cs.any isLineBreak)

def allowsSingle (cs : List Char) : Bool :=
  !(needsEscapes cs || hasPair isLineBreak (· = ' ') cs)

def allowsBlock (cs : List Char) : Bool := !(needsEscapes cs || cs.getLast? = some ' ')

/-- Puts the indentation before each line that is not empty. -/
def indented (indent : Nat) : Bool → List Char → List Char
  | _, [] => []
  | atStart, c :: cs =>
    if isLineBreak c then c :: indented indent true cs
    else if atStart then List.replicate indent ' ' ++ c :: indented indent false cs
    else c :: indented indent false cs

/-- The marks after the indicator of a literal block: the indentation where the text does not show it, and
what becomes of the breaks at its end. -/
def blockHints (cs : List Char) : List Char :=
  (if cs.head?.any fun c => c = ' ' || isLineBreak c then ['2'] else []) ++
    match cs.reverse with
    | last :: rest =>
      if !isLineBreak last then ['-'] else if rest.head?.all isLineBreak then ['+'] else []
    | [] => []

/-- A literal block. -/
def literal (indent : Nat) (cs : List Char) : Written :=
  let hints := blockHints cs
  { text := '|' :: hints ++ '\n' :: indented indent true cs
    endsLine := cs.getLast?.any isLineBreak
    isOpen := hints.getLast? = some '+' }

/-- The inside of apostrophes: after a break the next line is indented. -/
def singleBody (indent : Nat) : List Char → List Char
  | [] => []
  | c :: cs =>
    (if c = '\'' then ['\'', '\''] else [c]) ++
      (if isLineBreak c && !cs.head?.any isLineBreak then List.replicate indent ' ' else []) ++
      singleBody indent cs

def escapeLetter? (c : Char) : Option Char :=
  ([('\x00', '0'), ('\x07', 'a'), ('\x08', 'b'), ('\t', 't'), ('\n', 'n'), ('\x0b', 'v'), ('\x0c', 'f'),
    ('\r', 'r'), ('\x1b', 'e'), ('"', '"'), ('\\', '\\'), ('\x85', 'N'), ('\u2028', 'L'),
    ('\u2029', 'P')] : List (Char × Char)).lookup c

/-- A character between quotation marks. -/
def escaped (c : Char) : List Char :=
  let n := c.toNat
  let digits (width : Nat) := (Text.hexPadded width n).map Char.toUpper
  match escapeLetter? c with
  | some letter => ['\\', letter]
  | none =>
    if (0x20 ≤ n && n ≤ 0x7E) || (0xA0 ≤ n && n ≤ 0xFFFD && n ≠ 0xFEFF) then [c]
    else if n ≤ 0xFF then '\\' :: 'x' :: digits 2
    else if n ≤ 0xFFFF then '\\' :: 'u' :: digits 4
    else '\\' :: 'U' :: digits 8

def single (indent : Nat) (cs : List Char) : Written := ⟨'\'' :: singleBody indent cs ++ ['\''], false, false⟩

def double (cs : List Char) : Written := ⟨'"' :: cs.flatMap escaped ++ ['"'], false, false⟩

/-- A scalar inside of a collection whose content is indented. -/
def write (indent : Nat) (tag : Tag) (s : String) : Written :=
  let cs := s.toList
  if tag = .text ∧ '\n' ∈ cs then if allowsBlock cs then literal indent cs else double cs
  else if Schema.older.tagOf s = tag ∧ allowsPlain cs then ⟨cs, false, false⟩
  else if allowsSingle cs then single indent cs
  else double cs

/-- Whether a scalar is plain. -/
def isPlain (tag : Tag) (s : String) : Bool :=
  !(tag = .text && s.toList.any (· = '\n')) && Schema.older.tagOf s = tag && allowsPlain s.toList

end ScalarText

end PipelineTemplate.Yaml
