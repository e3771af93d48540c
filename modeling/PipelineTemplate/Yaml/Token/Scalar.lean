import PipelineTemplate.Yaml.Token
import PipelineTemplate.Text.Digit

/-!
# Reading scalars

Scalars in quotes, in blocks and plain ones. Line breaks inside are folded: a single break becomes a
blank, and of several breaks the first disappears. A literal block keeps its breaks.
-/

namespace PipelineTemplate.Yaml

namespace Cursor

/-! ## Scalars in quotes -/

/-- What a single character stands for after a backslash. -/
def shortEscape? : Char → Option Char
  | '0' => some '\x00'
  | 'a' => some '\x07'
  | 'b' => some '\x08'
  | 't' | '\t' => some '\t'
  | 'n' => some '\n'
  | 'v' => some '\x0b'
  | 'f' => some '\x0c'
  | 'r' => some '\r'
  | 'e' => some '\x1b'
  | ' ' => some ' '
  | '"' => some '"'
  | '\\' => some '\\'
  | '/' => some '/'
  | 'N' => some '\x85'
  | '_' => some '\xa0'
  | 'L' => some '\u2028'
  | 'P' => some '\u2029'
  | _ => none

/-- The number of hexadecimal digits that follow a character after a backslash. -/
def codeLength? : Char → Option Nat
  | 'x' => some 2
  | 'u' => some 4
  | 'U' => some 8
  | _ => none

/-- The character of a number; there is none beyond the last plane. -/
def charOfCode (code : Nat) : Except Fault Char :=
  if code ≤ 0x10FFFF then .ok (Char.ofNat code) else .error (.noCharacter (0x7FFFFFFF < code))

/-- The breaks at the beginnings of the following lines of a quoted scalar; no document may begin or
end there. -/
def quotedBreaks (c : Cursor) : Except Fault (List Char × Cursor) :=
  if c.atDocumentMark then c.fail .tokens
  else
    let d := c.skip fun char => char = ' ' || char = '\t'
    match _h : d.rest with
    | [] => .ok ([], d)
    | char :: _rest =>
      if _hb : isBreak char = true then do
        let (more, e) ← quotedBreaks d.lineBreak.2
        return (d.lineBreak.1 ++ more, e)
      else .ok ([], d)
termination_by c.rest.length
decreasing_by
  exact Nat.lt_of_lt_of_le (lineBreak_lt _h _hb) (advance_le c _)

/-- The character that an escape stands for, at the cursor after the backslash; an escaped line break
stands for the breaks after it. -/
def escape (c : Cursor) : Except Fault (List Char × Cursor) :=
  match c.rest with
  | [] => c.fail .tokens
  | char :: rest =>
    match shortEscape? char, codeLength? char with
    | some plain, _ => .ok ([plain], c.next)
    | none, some n =>
      let digits := rest.take n
      if digits.length = n ∧ digits.all Text.isHex then do
        return ([← charOfCode (Text.hexNumeral digits)], c.advance (n + 1))
      else c.fail .tokens
    | none, none =>
      if isBreak char then c.lineBreak.2.quotedBreaks else c.fail .tokens

/-- The part of a quoted scalar up to the next blank, break or closing quote. -/
def quotedRun (double : Bool) (c : Cursor) : Except Fault (List Char × Cursor) :=
  let further (part : List Char) (d : Cursor) : Except Fault (List Char × Cursor) :=
    if _h : d.rest.length < c.rest.length then do
      let (more, e) ← quotedRun double d
      return (part ++ more, e)
    else .ok ([], c)
  match c.rest with
  | [] => .ok ([], c)
  | char :: rest =>
    if char = ' ' || char = '\t' || isBreak char then .ok ([], c)
    else if double then
      if char = '"' then .ok ([], c)
      else if char = '\\' then do
        let (part, d) ← c.next.escape
        further part d
      else further [char] c.next
    else if char = '\'' then
      if rest.head? = some '\'' then further ['\''] (c.advance 2) else .ok ([], c)
    else further [char] c.next
termination_by c.rest.length

/-- The blanks and breaks between two parts of a quoted scalar. -/
def quotedGap (c : Cursor) : Except Fault (List Char × Cursor) :=
  let blanks := c.word fun char => char = ' ' || char = '\t'
  let d := c.advance blanks.length
  match d.peek with
  | none => d.fail .tokens
  | some char =>
    if isBreak char then do
      let (first, e) := d.lineBreak
      let (breaks, e) ← e.quotedBreaks
      let kept := if first ≠ ['\n'] then first else if breaks = [] then [' '] else []
      return (kept ++ breaks, e)
    else .ok (blanks, d)

/-- The rest of a quoted scalar, its closing quote included. -/
def quotedRest (double : Bool) (c : Cursor) : Except Fault (List Char × Cursor) := do
  let (part, d) ← c.quotedRun double
  if d.isAt (if double then '"' else '\'') then return (part, d.next)
  else
    let (gap, e) ← d.quotedGap
    if _h : e.rest.length < c.rest.length then
      let (more, f) ← quotedRest double e
      return (part ++ gap ++ more, f)
    else d.fail .tokens
termination_by c.rest.length

/-- A scalar in quotes, at the cursor of its opening quote. -/
def quotedScalar (double : Bool) (c : Cursor) : Except Fault (List Char × Cursor) :=
  c.next.quotedRest double

/-! ## Plain scalars -/

/-- The number of characters up to the end of a word of a plain scalar. A colon ends the word before a
blank; between brackets, indicators of collections end it too. -/
def plainLength (flow : Bool) : List Char → Nat
  | [] => 0
  | char :: rest =>
    let closes (c : Char) : Bool := c ∈ [',', '[', ']', '\x7b', '\x7d']
    if endsWord (some char) then 0
    else if char = ':' && (endsWord rest.head? || (flow && rest.head?.any closes)) then 0
    else if flow && (closes char || char = '?') then 0
    else plainLength flow rest + 1

/-- The breaks, with the spaces between them, on the way to the next word of a plain scalar; nothing
is given when a document begins or ends there. -/
def plainBreaks (c : Cursor) : Option (List Char) × Cursor :=
  if c.atDocumentMark then (none, c)
  else
    let d := c.skipSpaces
    match _h : d.rest with
    | [] => (some [], d)
    | char :: _rest =>
      if _hb : isBreak char = true then
        let (more, e) := plainBreaks d.lineBreak.2
        (more.map (d.lineBreak.1 ++ ·), e)
      else (some [], d)
termination_by c.rest.length
decreasing_by
  exact Nat.lt_of_lt_of_le (lineBreak_lt _h _hb) (advance_le c _)

/-- What stands for the blanks and breaks after a word of a plain scalar, and whether a line ended
there. -/
def plainGap (c : Cursor) : List Char × Bool × Cursor :=
  let spaces := c.word (· = ' ')
  let d := c.advance spaces.length
  match d.peek with
  | none => (spaces, false, d)
  | some char =>
    if isBreak char then
      let (first, e) := d.lineBreak
      match e.plainBreaks with
      | (none, f) => ([], true, f)
      | (some breaks, f) =>
        let kept := if first ≠ ['\n'] then first else if breaks = [] then [' '] else []
        (kept ++ breaks, true, f)
    else (spaces, false, d)

/-- A plain scalar: its text, whether a line ended after its last word, and the place after it. The
gap is what stands before the next word. -/
def plainScalar (flow : Bool) (indent : Int) (gap : List Char) (crossed : Bool) (c : Cursor) :
    List Char × Bool × Cursor :=
  let n := plainLength flow c.rest
  if c.isAt '#' || n = 0 then ([], crossed, c)
  else
    let word := gap ++ c.rest.take n
    let (nextGap, nextCrossed, d) := (c.advance n).plainGap
    if nextGap = [] || d.isAt '#' || (!flow && (d.column : Int) < indent) then (word, nextCrossed, d)
    else if _h : d.rest.length < c.rest.length then
      let (more, lastCrossed, e) := plainScalar flow indent nextGap nextCrossed d
      (word ++ more, lastCrossed, e)
    else (word, nextCrossed, d)
termination_by c.rest.length

/-! ## Block scalars -/

/-- What becomes of the breaks at the end of a block scalar. -/
inductive Chomping where
  | strip | clip | keep
  deriving DecidableEq

/-- The chomping and the indentation that the first line of a block scalar names, in either order. -/
def blockHeader (c : Cursor) : Except Fault (Chomping × Option Nat × Cursor) := do
  let chomping (c : Cursor) : Chomping × Cursor :=
    if c.isAt '+' then (.keep, c.next) else if c.isAt '-' then (.strip, c.next) else (.clip, c)
  let increment (c : Cursor) : Except Fault (Option Nat × Cursor) :=
    match c.peek with
    | some char =>
      if char = '0' then c.fail .tokens
      else if Text.isPlainDigit char then .ok (some (char.toNat - 48), c.next)
      else .ok (none, c)
    | none => .ok (none, c)
  let (first, d) := chomping c
  let (indent, d) ← increment d
  let (chomp, d) := if first = .clip ∧ indent.isSome then chomping d else (first, d)
  d.demand (endsField d.peek)
  return (chomp, indent, d)

/-- Skips the rest of a line, which may hold spaces and a comment only. -/
def restOfLine (c : Cursor) : Except Fault Cursor := do
  let d := c.skipSpaces
  let d := if d.isAt '#' then d.skip (!isBreak ·) else d
  d.demand (endsLine d.peek)
  return d.lineBreak.2

/-- The breaks before the first line of a block scalar, and the greatest number of spaces that a line
there begins with. -/
def blockIndentation (widest : Nat) (c : Cursor) : List Char × Nat × Cursor :=
  let d := c.skipSpaces
  let widest := if d.rest.length < c.rest.length then max widest d.column else widest
  match _h : d.rest with
  | [] => ([], widest, d)
  | char :: _rest =>
    if _hb : isBreak char = true then
      let (more, n, e) := blockIndentation widest d.lineBreak.2
      (d.lineBreak.1 ++ more, n, e)
    else ([], widest, d)
termination_by c.rest.length
decreasing_by
  exact Nat.lt_of_lt_of_le (lineBreak_lt _h _hb) (advance_le c _)

/-- Skips the spaces up to a column. -/
def skipIndent (c : Cursor) (indent : Nat) : Cursor :=
  c.advance (min (c.word (· = ' ')).length (indent - c.column))

/-- The breaks of empty lines, up to the next line with the given indentation or less. -/
def blockBreaks (indent : Nat) (c : Cursor) : List Char × Cursor :=
  let d := c.skipIndent indent
  match _h : d.rest with
  | [] => ([], d)
  | char :: _rest =>
    if _hb : isBreak char = true then
      let (more, e) := blockBreaks indent d.lineBreak.2
      (d.lineBreak.1 ++ more, e)
    else ([], d)
termination_by c.rest.length
decreasing_by
  exact Nat.lt_of_lt_of_le (lineBreak_lt _h _hb) (advance_le c _)

/-- The lines of a block scalar from the cursor on, where `breaks` are those of the empty lines before.
In a folded one a break between two lines that do not begin with a blank becomes a space, or nothing
when empty lines follow. -/
def blockLines (folded : Bool) (chomping : Chomping) (indent : Nat) (breaks : List Char)
    (c : Cursor) : List Char × Cursor :=
  let line := c.word (!isBreak ·)
  let (lineEnd, d) := (c.advance line.length).lineBreak
  let (after, e) := d.blockBreaks indent
  let beginsText (c : Cursor) : Bool := !(c.isAt ' ' || c.isAt '\t')
  if _h : e.column = indent ∧ e.atEnd = false ∧ e.rest.length < c.rest.length then
    let joint :=
      if folded && lineEnd = ['\n'] && beginsText c && beginsText e then
        if after = [] then [' '] else []
      else lineEnd
    let (more, f) := blockLines folded chomping indent after e
    (breaks ++ line ++ joint ++ more, f)
  else
    (breaks ++ line ++ (if chomping = .strip then [] else lineEnd) ++
      (if chomping = .keep then after else []), e)
termination_by c.rest.length

/-- A block scalar, at the cursor of its indicator, inside a collection of the given indentation. -/
def blockScalar (folded : Bool) (outer : Int) (c : Cursor) :
    Except Fault (List Char × Cursor) := do
  let (chomping, increment, d) ← c.next.blockHeader
  let d ← d.restOfLine
  let least := max (outer + 1).toNat 1
  let (breaks, indent, d) := match increment with
    | none =>
      let (breaks, widest, d) := d.blockIndentation 0
      (breaks, max least widest, d)
    | some n =>
      let indent := least + n - 1
      let (breaks, d) := d.blockBreaks indent
      (breaks, indent, d)
  if d.column = indent ∧ d.atEnd = false then
    return d.blockLines folded chomping indent breaks
  else return (if chomping = .keep then breaks else [], d)

end Cursor

end PipelineTemplate.Yaml
