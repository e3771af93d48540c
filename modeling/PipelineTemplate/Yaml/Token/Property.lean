import PipelineTemplate.Yaml.Token.Scalar

/-!
# Reading anchors, tags and directives
-/

namespace PipelineTemplate.Yaml

/-- The characters of names of anchors and handles. -/
def isNameChar (c : Char) : Bool := c.isAlphanum || c = '-' || c = '_'

/-- The characters of tags that stand for themselves, and the escape mark. -/
def isTagChar (c : Char) : Bool := c.isAlphanum || c ∈ "-;/?:@&=+$,_.!~*'()[]%".toList

/-- The text that some bytes encode in UTF-8. -/
def decodeUtf8? (bytes : List Nat) : Option String :=
  String.fromUTF8? ⟨(bytes.map UInt8.ofNat).toArray⟩

namespace Cursor

/-- The name after the indicator of an anchor or an alias. -/
def anchorName (c : Cursor) : Except Fault (String × Cursor) := do
  let name := c.next.word isNameChar
  let d := c.next.advance name.length
  c.demand (name ≠ [])
  d.demand (endsWord d.peek || d.peek.any (· ∈ "?:,]\x7d%@`".toList))
  return (String.ofList name, d)

/-- A run of escaped bytes in a tag. -/
def escapedBytes (c : Cursor) : Except Fault (List Nat × Cursor) :=
  match c.rest with
  | '%' :: rest =>
    match rest with
    | a :: b :: _ =>
      if Text.isHex a && Text.isHex b then do
        let d := c.advance 3
        if _h : d.rest.length < c.rest.length then
          let (more, e) ← escapedBytes d
          return (Text.hexNumeral [a, b] :: more, e)
        else return ([], c)
      else c.fail .tokens
    | _ => c.fail .tokens
  | _ => .ok ([], c)
termination_by c.rest.length

/-- The characters of a tag up to the first that cannot stand in one. -/
def tagText (c : Cursor) : Except Fault (List Char × Cursor) :=
  match c.rest with
  | [] => .ok ([], c)
  | char :: _ =>
    if char = '%' then do
      let (bytes, d) ← c.escapedBytes
      match decodeUtf8? bytes with
      | none => c.fail .tokens
      | some s =>
        if _h : d.rest.length < c.rest.length then
          let (more, e) ← tagText d
          return (s.toList ++ more, e)
        else return ([], c)
    else if isTagChar char then
      if _h : c.next.rest.length < c.rest.length then do
        let (more, e) ← tagText c.next
        return (char :: more, e)
      else .ok ([], c)
    else .ok ([], c)
termination_by c.rest.length

/-- The characters of a tag; there must be at least one. -/
def tagUri (c : Cursor) : Except Fault (String × Cursor) := do
  let (text, d) ← c.tagText
  d.demand (d.rest.length < c.rest.length)
  return (String.ofList text, d)

/-- A handle: a single exclamation mark, or a name between two. -/
def tagHandle (c : Cursor) : Except Fault (String × Cursor) := do
  c.demand (c.isAt '!')
  let name := c.next.word isNameChar
  let d := c.next.advance name.length
  if name = [] ∧ d.isAt ' ' then return ("!", d)
  else
    d.demand (d.isAt '!')
    return ("!" ++ String.ofList name ++ "!", d.next)

/-- A tag, at the cursor of its exclamation mark: between angle brackets, alone, or with a handle. -/
def tag (c : Cursor) : Except Fault (Option String × String × Cursor) := do
  let (handle, suffix, d) ← (
    if c.peekAt 1 = some '<' then do
      let (suffix, d) ← (c.advance 2).tagUri
      d.demand (d.isAt '>')
      return (none, suffix, d.next)
    else if endsWord (c.peekAt 1) then return (none, "!", c.next)
    else do
      let field := c.next.word fun char => !endsField (some char)
      let (handle, d) ← if '!' ∈ field then c.tagHandle else pure ("!", c.next)
      let (suffix, d) ← d.tagUri
      return (some handle, suffix, d) : Except Fault (Option String × String × Cursor))
  d.demand (endsField d.peek)
  return (handle, suffix, d)

/-- A number of a version. -/
def versionNumber (c : Cursor) : Except Fault (Nat × Cursor) := do
  let digits := c.word Text.isPlainDigit
  c.demand (digits ≠ [])
  return (Text.numeral digits, c.advance digits.length)

/-- A directive, at the cursor of its percent sign, and the rest of its line. -/
def directive (c : Cursor) : Except Fault (Prologue × Cursor) := do
  let name := c.next.word isNameChar
  let d := c.next.advance name.length
  d.demand (name ≠ [])
  d.demand (endsField d.peek)
  if name = "YAML".toList then
    let (major, e) ← d.skipSpaces.versionNumber
    e.demand (e.isAt '.')
    let (_, f) ← e.next.versionNumber
    f.demand (endsField f.peek)
    return (.version major, ← f.restOfLine)
  else if name = "TAG".toList then
    let (handle, e) ← d.skipSpaces.tagHandle
    e.demand (e.isAt ' ')
    let (start, f) ← e.skipSpaces.tagUri
    f.demand (endsField f.peek)
    return (.tag handle start, ← f.restOfLine)
  else
    return (.other, ← (d.skip (!isBreak ·)).restOfLine)

end Cursor

end PipelineTemplate.Yaml
