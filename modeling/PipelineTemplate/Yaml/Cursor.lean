import PipelineTemplate.Failure

/-!
# Cursors in YAML text

A cursor is a place in a text: what follows it and the line and column where it stands. Lines end at
line feeds, carriage returns, pairs of both, next-line characters and the two separators.
-/

namespace PipelineTemplate.Yaml

def isBreak (c : Char) : Bool :=
  c = '\n' || c = '\r' || c = '\x85' || c = '\u2028' || c = '\u2029'

/-- Whether a line ends before the character; nothing stands for the end of the text. -/
def endsLine : Option Char → Bool
  | none => true
  | some c => isBreak c

/-- Whether a field of a directive or a tag ends before the character. -/
def endsField : Option Char → Bool
  | none => true
  | some c => c = ' ' || isBreak c

/-- Whether a word ends before the character. -/
def endsWord : Option Char → Bool
  | none => true
  | some c => c = ' ' || c = '\t' || isBreak c

/-- The characters that a YAML text may contain. -/
def isAllowed (c : Char) : Bool :=
  let n := c.toNat
  n = 9 || n = 10 || n = 13 || (0x20 ≤ n && n ≤ 0x7E) || n = 0x85 || (0xA0 ≤ n && n ≤ 0xD7FF) ||
    (0xE000 ≤ n && n ≤ 0xFFFD) || 0x10000 ≤ n

structure Cursor where
  rest : List Char
  index : Nat := 0
  line : Nat := 0
  column : Nat := 0

namespace Cursor

def peek (c : Cursor) : Option Char := c.rest.head?

/-- The character some places further on. -/
def peekAt (c : Cursor) (n : Nat) : Option Char := c.rest[n]?

def atEnd (c : Cursor) : Bool := c.rest.isEmpty

def isAt (c : Cursor) (char : Char) : Bool := c.peek == some char

/-- The next place. A byte order mark takes no column. -/
def next (c : Cursor) : Cursor :=
  match c.rest with
  | [] => c
  | char :: rest =>
    if isBreak char && !(char == '\r' && rest.head? == some '\n') then
      ⟨rest, c.index + 1, c.line + 1, 0⟩
    else ⟨rest, c.index + 1, c.line, if char = '\uFEFF' then c.column else c.column + 1⟩

def advance (c : Cursor) : Nat → Cursor
  | 0 => c
  | n + 1 => c.next.advance n

theorem next_length (c : Cursor) : c.next.rest.length = c.rest.length - 1 := by
  unfold next
  split
  · next h => simp [h]
  · next h => split <;> simp [h]

theorem advance_length (c : Cursor) (n : Nat) :
    (c.advance n).rest.length = c.rest.length - n := by
  induction n generalizing c with
  | zero => rfl
  | succ n ih => simp only [advance, ih, next_length]; omega

theorem advance_le (c : Cursor) (n : Nat) : (c.advance n).rest.length ≤ c.rest.length := by
  rw [advance_length]; omega

/-- The characters up to the first that fails the test. -/
def word (c : Cursor) (test : Char → Bool) : List Char := c.rest.takeWhile test

/-- The place of the first character that fails the test. -/
def skip (c : Cursor) (test : Char → Bool) : Cursor := c.advance (c.word test).length

def skipSpaces (c : Cursor) : Cursor := c.skip (· = ' ')

/-- The line break at the cursor, in the form that scalars keep, and the place after it. -/
def lineBreak (c : Cursor) : List Char × Cursor :=
  match c.rest with
  | '\r' :: '\n' :: _ => (['\n'], c.advance 2)
  | '\r' :: _ | '\n' :: _ | '\x85' :: _ => (['\n'], c.next)
  | '\u2028' :: _ => (['\u2028'], c.next)
  | '\u2029' :: _ => (['\u2029'], c.next)
  | _ => ([], c)

theorem lineBreak_lt {c : Cursor} {char : Char} {rest : List Char} (h : c.rest = char :: rest)
    (hb : isBreak char = true) : c.lineBreak.2.rest.length < c.rest.length := by
  unfold lineBreak
  split <;> simp_all [next_length, advance_length, isBreak] <;> omega

/-- Whether a document marker stands at the cursor: three hyphens or three dots and the end of a
word. -/
def atDocumentMark (c : Cursor) : Bool :=
  (['-', '-', '-'].isPrefixOf c.rest || ['.', '.', '.'].isPrefixOf c.rest) && endsWord (c.peekAt 3)

/-- The failure of a stage at the line of the cursor. -/
def fail {α : Type} (c : Cursor) (stage : YamlStage) : Except Fault α :=
  .error (.yaml ⟨stage, some (c.line + 1)⟩)

/-- Goes on if the condition holds; otherwise no token can be made here. -/
def demand (c : Cursor) (condition : Bool) : Except Fault Unit :=
  if condition then .ok () else c.fail .tokens

end Cursor

end PipelineTemplate.Yaml
