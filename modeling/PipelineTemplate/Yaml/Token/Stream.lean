import PipelineTemplate.Yaml.Token.Property

/-!
# The tokens of a text

Tokens are read one after the other. A scalar, a collection in brackets, an alias or a property may
turn out to be the key of a mapping when a colon follows on the same line; its place among the tokens
is kept until then, so that the mark of a key, and where a mapping begins that of the mapping, can be
put before it.

A text that cannot be read to its end gives the tokens up to the first place that might still have
become a key, together with the failure: nothing after that place is settled.
-/

namespace PipelineTemplate.Yaml

/-- A place among the tokens that may become a key. -/
structure Candidate where
  /-- The number of tokens before it. -/
  position : Nat
  /-- Nothing else can stand there, so that a colon has to follow. -/
  required : Bool
  cursor : Cursor

structure Reader where
  cursor : Cursor
  /-- The tokens read so far, the last one first. -/
  tokens : List Lexeme
  /-- How many brackets are open. -/
  depth : Int := 0
  /-- Whether a key may begin here. -/
  keyAllowed : Bool := true
  /-- The last candidate of each depth. -/
  candidates : List (Int × Candidate) := []
  /-- The column of the innermost block collection, and those of the collections around it. -/
  indent : Int := -1
  outer : List Int := []
  ended : Bool := false

namespace Reader

def inFlow (r : Reader) : Bool := r.depth != 0

def put (r : Reader) (token : Token) (line : Nat) : Reader :=
  { r with tokens := ⟨token, line⟩ :: r.tokens }

def putMark (r : Reader) (m : Mark) : Reader := r.put (.mark m) r.cursor.line

/-- Puts a mark before the tokens that came after a position. -/
def putBefore (r : Reader) (position : Nat) (m : Mark) (line : Nat) : Reader :=
  { r with tokens := r.tokens.insertIdx (r.tokens.length - position) ⟨.mark m, line⟩ }

/-- Drops the candidates that a colon can no longer follow: it would have to stand on the same line and
at most 1024 characters further on. -/
def dropStale (r : Reader) : Except Fault Reader :=
  let stale (k : Candidate) : Bool :=
    k.cursor.line != r.cursor.line || 1024 < r.cursor.index - k.cursor.index
  if r.candidates.any fun (_, k) => stale k && k.required then r.cursor.fail .tokens
  else .ok { r with candidates := r.candidates.filter fun (_, k) => !stale k }

/-- Gives up the candidate of this depth. -/
def dropCandidate (r : Reader) : Except Fault Reader :=
  if (r.candidates.lookup r.depth).any (·.required) then r.cursor.fail .tokens
  else .ok { r with candidates := r.candidates.filter fun (depth, _) => depth != r.depth }

/-- Keeps the place of the next token if it may become a key. -/
def saveCandidate (r : Reader) : Except Fault Reader :=
  if r.keyAllowed then do
    let r ← r.dropCandidate
    let required := !r.inFlow && r.indent == r.cursor.column
    let candidate : Candidate := ⟨r.tokens.length, required, r.cursor⟩
    return { r with candidates := (r.depth, candidate) :: r.candidates }
  else .ok r

/-- Ends the block collections that begin to the right of a column. -/
def unwind (column : Int) (r : Reader) : Reader :=
  if r.inFlow then r
  else
    let (ended, kept) := (r.indent :: r.outer).span (column < ·)
    let blockEnd : Lexeme := ⟨.mark .blockEnd, r.cursor.line⟩
    { r with
      tokens := List.replicate ended.length blockEnd ++ r.tokens
      indent := kept.headD (-1)
      outer := kept.tail }

/-- Begins a block collection at a column, unless one begins there or to the right of it already. -/
def beginsBlock (r : Reader) (column : Nat) : Bool := r.indent < column

def pushIndent (r : Reader) (column : Nat) : Reader :=
  { r with indent := column, outer := r.indent :: r.outer }

/-- Skips the spaces, comments and line breaks before the next token; after a line break outside of
brackets a key may begin. -/
def skipToToken (r : Reader) : Reader :=
  let c := if r.cursor.index = 0 && r.cursor.isAt '\uFEFF' then r.cursor.next else r.cursor
  let d := c.skipSpaces
  let e := if d.isAt '#' then d.skip (!isBreak ·) else d
  let f := e.lineBreak.2
  if _h : f.rest.length < e.rest.length ∧ f.rest.length < r.cursor.rest.length then
    skipToToken { r with cursor := f, keyAllowed := r.keyAllowed || !r.inFlow }
  else { r with cursor := e }
termination_by r.cursor.rest.length
decreasing_by exact _h.2

/-- Puts the mark of an indicator and passes its characters. -/
def putWide (r : Reader) (m : Mark) (length : Nat) : Reader :=
  { r.putMark m with cursor := r.cursor.advance length }

/-- Puts the mark of an indicator of one character. -/
def putIndicator (r : Reader) (m : Mark) : Reader := r.putWide m 1

/-- The indicator of a block entry or of a key that is marked as such. Outside of brackets it needs a
place where a key may begin, and it may be the first of a collection. -/
def putBlockIndicator (r : Reader) (collection entry : Mark) (keyFollows : Bool) :
    Except Fault Reader := do
  if !r.inFlow then r.cursor.demand r.keyAllowed
  let column := r.cursor.column
  let r := if !r.inFlow && r.beginsBlock column then (r.pushIndent column).putMark collection else r
  let r ← { r with keyAllowed := keyFollows }.dropCandidate
  return r.putIndicator entry

/-- The colon of a value. It makes the candidate of this depth a key. -/
def putValue (r : Reader) : Except Fault Reader :=
  match r.candidates.lookup r.depth with
  | some k =>
    let line := k.cursor.line
    let r := { r with candidates := r.candidates.filter fun (depth, _) => depth != r.depth }
    let r := r.putBefore k.position .key line
    let r :=
      if !r.inFlow && r.beginsBlock k.cursor.column then
        (r.pushIndent k.cursor.column).putBefore k.position .blockMapping line
      else r
    .ok { r.putIndicator .value with keyAllowed := false }
  | none => r.putBlockIndicator .blockMapping .value (!r.inFlow)

/-- A token that may begin a key, and the place after it. -/
def putContent (r : Reader) (read : Cursor → Except Fault (Token × Cursor)) :
    Except Fault Reader := do
  let r ← r.saveCandidate
  let (token, d) ← read r.cursor
  return { r.put token r.cursor.line with cursor := d, keyAllowed := false }

/-- The indicators that a plain scalar cannot begin with. -/
def isIndicator (c : Char) : Bool := c ∈ "-?:,[]\x7b\x7d#&*!|>'\"%@`".toList

/-- Whether a plain scalar begins at the cursor. -/
def beginsPlain (r : Reader) : Bool :=
  match r.cursor.peek with
  | none => false
  | some char =>
    (!endsWord (some char) && !isIndicator char) ||
      (!endsWord (r.cursor.peekAt 1) && (char = '-' || (!r.inFlow && (char = '?' || char = ':'))))

/-- Begins or ends a document, or gives a directive, which ends all block collections. -/
def leaveBlocks (r : Reader) : Except Fault Reader := do
  let r ← (r.unwind (-1)).dropCandidate
  return { r with keyAllowed := false }

def scalarToken (style : Style) (text : List Char) : Token := .scalar (String.ofList text) style

/-- A plain scalar. After a line break inside or behind it a key may begin. -/
def putPlain (r : Reader) : Except Fault Reader := do
  let r ← r.saveCandidate
  let (text, crossed, d) := r.cursor.plainScalar r.inFlow (r.indent + 1) [] false
  return { r.put (scalarToken .plain text) r.cursor.line with cursor := d, keyAllowed := crossed }

def putBlockScalar (folded : Bool) (r : Reader) : Except Fault Reader := do
  let r ← { r with keyAllowed := true }.dropCandidate
  let (text, d) ← r.cursor.blockScalar folded r.indent
  return { r.put (scalarToken (if folded then .folded else .literal) text) r.cursor.line with
    cursor := d }

def openFlow (m : Mark) (r : Reader) : Except Fault Reader := do
  let r ← r.saveCandidate
  return { r.putIndicator m with depth := r.depth + 1, keyAllowed := true }

def closeFlow (m : Mark) (r : Reader) : Except Fault Reader := do
  let r ← r.dropCandidate
  return { r.putIndicator m with depth := r.depth - 1, keyAllowed := false }

/-- Reads the token at the cursor, which stands on the first character of it. -/
def readToken (r : Reader) : Except Fault Reader :=
  let c := r.cursor
  let beforeWord := endsWord (c.peekAt 1)
  let atMark (m : Char) := c.column = 0 && c.isAt m && c.atDocumentMark
  match c.peek with
  | none => do
    let r ← r.leaveBlocks
    return { r.putMark .streamEnd with candidates := [], ended := true }
  | some char =>
    if char = '%' && c.column = 0 then do
      let r ← r.leaveBlocks
      let (p, d) ← c.directive
      return { r.put (.prologue p) c.line with cursor := d }
    else if atMark '-' then do return (← r.leaveBlocks).putWide .documentStart 3
    else if atMark '.' then do return (← r.leaveBlocks).putWide .documentEnd 3
    else if char = '[' then r.openFlow .openSequence
    else if char = '\x7b' then r.openFlow .openMapping
    else if char = ']' then r.closeFlow .closeSequence
    else if char = '\x7d' then r.closeFlow .closeMapping
    else if char = ',' then do
      return (← { r with keyAllowed := true }.dropCandidate).putIndicator .flowEntry
    else if char = '-' && beforeWord then
      r.putBlockIndicator .blockSequence .blockEntry true
    else if char = '?' && (r.inFlow || beforeWord) then
      r.putBlockIndicator .blockMapping .key (!r.inFlow)
    else if char = ':' && (r.inFlow || beforeWord) then r.putValue
    else if char = '*' then
      r.putContent fun c => do let (name, d) ← c.anchorName; return (.aliasOf name, d)
    else if char = '&' then
      r.putContent fun c => do let (name, d) ← c.anchorName; return (.anchor name, d)
    else if char = '!' then
      r.putContent fun c => do let (handle, suffix, d) ← c.tag; return (.tag handle suffix, d)
    else if char = '|' && !r.inFlow then r.putBlockScalar false
    else if char = '>' && !r.inFlow then r.putBlockScalar true
    else if char = '\'' then
      r.putContent fun c => do
        let (s, d) ← c.quotedScalar false
        return (scalarToken .single s, d)
    else if char = '"' then
      r.putContent fun c => do
        let (s, d) ← c.quotedScalar true
        return (scalarToken .double s, d)
    else if r.beginsPlain then r.putPlain
    else c.fail .tokens

/-- Reads one token more, and what must come before it. -/
def step (r : Reader) : Except Fault Reader := do
  let r ← r.skipToToken.dropStale
  let r ← (r.unwind r.cursor.column).readToken
  if r.ended then return r else r.dropStale

/-- The number of tokens that are settled: those before the first candidate. -/
def settled (r : Reader) : Nat :=
  r.candidates.foldl (fun n (_, k) => min n k.position) r.tokens.length

/-- The settled tokens, and the failure if the text cannot be read to its end. -/
def readAll (r : Reader) : List Lexeme × Option Fault :=
  match r.step with
  | .error e => (r.tokens.reverse.take r.settled, some e)
  | .ok next =>
    if next.ended then (next.tokens.reverse, none)
    else if _h : next.cursor.rest.length < r.cursor.rest.length then readAll next
    else (next.tokens.reverse, none)
termination_by r.cursor.rest.length

end Reader

/-- The tokens of a text and, if it cannot be read to its end, the failure that follows them. A text
with a character that no YAML text contains has no tokens at all. -/
def tokens (text : List Char) : Except Fault (List Lexeme × Option Fault) :=
  if text.all isAllowed then
    .ok (Reader.readAll { cursor := { rest := text }, tokens := [⟨.mark .streamStart, 0⟩] })
  else .error (.yaml ⟨.characters, none⟩)

end PipelineTemplate.Yaml
