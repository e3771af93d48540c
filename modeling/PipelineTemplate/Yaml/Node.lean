import PipelineTemplate.Yaml.Schema
import PipelineTemplate.Yaml.Token.Stream

/-!
# Nodes

The tree that the tokens of a document spell: scalars, sequences and mappings with their tags, the
lines on which they start, and an alias replaced by what it stands for. Reading a node takes tokens
from the front; each function gives the tokens that are left together with the bound on their number
by which the reading ends.
-/

namespace PipelineTemplate.Yaml

/-- A node and the line that it starts on, counted from zero. -/
inductive Node where
  | scalar (tag : Tag) (text : String) (style : Style) (line : Nat)
  | sequence (tag : Tag) (items : List Node) (line : Nat)
  | mapping (tag : Tag) (pairs : List (Node × Node)) (line : Nat)
  /-- A node around this one, which starts on the line. The flag tells that the node and all those
  around it are sequences. -/
  | enclosing (inSequences : Bool) (line : Nat)

namespace Node

instance : Inhabited Node := ⟨.enclosing false 0⟩

def line : Node → Nat
  | .scalar _ _ _ line | .sequence _ _ line | .mapping _ _ line | .enclosing _ line => line

/-- A scalar of which nothing is written. -/
def empty (line : Nat) : Node := .scalar .null "" .plain line

/-- What is the same for all nodes of a document. -/
structure Setting where
  schema : Schema
  /-- What the handles of tags stand for. -/
  handles : List (String × String)
  /-- The failure that follows the tokens. -/
  cut : Fault

/-- The tokens that are left, and the nodes with anchors so far. -/
structure Rest where
  lexemes : List Lexeme
  anchors : List (String × Node) := []

namespace Rest

def size (s : Rest) : Nat := s.lexemes.length

/-- Gives a node a name. -/
def anchor (s : Rest) (name : Option String) (node : Node) : Rest :=
  match name with
  | none => s
  | some name => { s with anchors := (name, node) :: s.anchors }

@[simp] theorem size_anchor (s : Rest) (name : Option String) (node : Node) :
    (s.anchor name node).size = s.size := by
  cases name <;> rfl

/-- The next token, and what is left after it. -/
def next (s : Rest) (cut : Fault) : Except Fault (Lexeme × {r : Rest // r.size < s.size}) :=
  match h : s.lexemes with
  | [] => .error cut
  | l :: rest => .ok (l, ⟨{ s with lexemes := rest }, by simp [size, h]⟩)

end Rest

/-- What was read, and what is left: less than before. -/
abbrev Shorter (α : Type) (s : Rest) := α × {r : Rest // r.size < s.size}

/-- What was read, and what is left: no more than before. -/
abbrev NoLonger (α : Type) (s : Rest) := α × {r : Rest // r.size ≤ s.size}

def fail {α : Type} (stage : YamlStage) (line : Nat) : Except Fault α :=
  .error (.yaml ⟨stage, some (line + 1)⟩)

/-! ## Properties -/

/-- An anchor and a tag, and the line of the first of them. -/
structure Properties where
  anchor : Option String := none
  tag : Option String := none
  line : Option Nat := none

/-- The full name of a tag. -/
def tagName (g : Setting) (handle : Option String) (suffix : String) (line : Nat) :
    Except Fault String :=
  match handle with
  | none => .ok suffix
  | some handle =>
    match g.handles.lookup handle with
    | some start => .ok (start ++ suffix)
    | none => fail .nesting line

/-- The anchor and the tag before a node, in either order. -/
def properties (g : Setting) (s : Rest) : Except Fault (NoLonger Properties s) := do
  let (l, ⟨t, ht⟩) ← s.next g.cut
  match l.token with
  | .anchor name =>
    let (m, ⟨u, hu⟩) ← t.next g.cut
    match m.token with
    | .tag handle suffix =>
      let tag ← tagName g handle suffix m.line
      return (⟨some name, some tag, some l.line⟩, ⟨u, by omega⟩)
    | _ => return (⟨some name, none, some l.line⟩, ⟨t, by omega⟩)
  | .tag handle suffix =>
    let (m, ⟨u, hu⟩) ← t.next g.cut
    match m.token with
    | .anchor name =>
      let tag ← tagName g handle suffix l.line
      return (⟨some name, some tag, some l.line⟩, ⟨u, by omega⟩)
    | _ =>
      let tag ← tagName g handle suffix l.line
      return (⟨none, some tag, some l.line⟩, ⟨t, by omega⟩)
  | _ => return ({}, ⟨s, by omega⟩)

/-- The tag of a scalar: a lone exclamation mark asks for the tag that a plain scalar would have. -/
def scalarTag (g : Setting) (p : Properties) (text : String) (plain : Bool) : Tag :=
  match p.tag with
  | none => if plain then g.schema.tagOf text else .text
  | some "!" => g.schema.tagOf text
  | some name => .ofName name

def collectionTag (p : Properties) (default : Tag) : Tag :=
  match p.tag with
  | none | some "!" => default
  | some name => .ofName name

/-- A name may be given only once. -/
def demandNew (p : Properties) (line : Nat) (s : Rest) : Except Fault Unit :=
  match p.anchor with
  | some name => if (s.anchors.lookup name).isSome then fail .references line else .ok ()
  | none => .ok ()

/-! ## Collections -/

/-- How a node may be written where it stands. -/
structure Place where
  /-- Outside of brackets. -/
  block : Bool
  /-- A sequence may begin without indentation. -/
  indentless : Bool
  /-- All nodes around it are sequences. -/
  inSequences : Bool

/-- The three ways to begin a collection. -/
inductive Opening where
  | flow | block | indentless

/-- What a token begins. -/
inductive Content where
  | scalar (text : String) (style : Style)
  | sequence (start : Opening)
  | mapping (start : Opening)
  | nothing

/-- What a token begins at a place. -/
def contentOf (place : Place) : Token → Content
  | .scalar text style => .scalar text style
  | .mark .openSequence => .sequence .flow
  | .mark .openMapping => .mapping .flow
  | .mark .blockSequence => if place.block then .sequence .block else .nothing
  | .mark .blockMapping => if place.block then .mapping .block else .nothing
  | .mark .blockEntry => if place.indentless then .sequence .indentless else .nothing
  | _ => .nothing

mutual

/-- A node. -/
def read (g : Setting) (place : Place) (s : Rest) : Except Fault (Shorter Node s) := do
  let (first, ⟨afterFirst, hf⟩) ← s.next g.cut
  match first.token with
  | .aliasOf name =>
    match s.anchors.lookup name with
    | some node => return (node, ⟨afterFirst, hf⟩)
    | none => fail .references first.line
  | _ =>
    let (p, ⟨t, ht⟩) ← properties g s
    let (l, ⟨u, hu⟩) ← t.next g.cut
    let line := p.line.getD l.line
    match contentOf place l.token with
    | .scalar text style =>
      demandNew p line t
      let node := .scalar (scalarTag g p text (style = .plain)) text style line
      return (node, ⟨u.anchor p.anchor node, by simp; omega⟩)
    | .sequence start =>
      demandNew p line t
      let inside := u.anchor p.anchor (.enclosing place.inSequences line)
      let (items, ⟨v, hv⟩) ← (match start with
        | .flow => flowItems g place.inSequences true inside
        | .block => blockItems g place.inSequences inside
        | .indentless => indentlessItems g place.inSequences l.line inside :
          Except Fault (NoLonger (List Node) inside))
      let node := .sequence (collectionTag p .sequence) items line
      return (node, ⟨v.anchor p.anchor node, by simp [inside] at hv; simp; omega⟩)
    | .mapping start =>
      demandNew p line t
      let inside := u.anchor p.anchor (.enclosing false line)
      let (pairs, ⟨v, hv⟩) ← (match start with
        | .flow => flowPairs g true inside
        | _ => blockPairs g inside : Except Fault (NoLonger (List (Node × Node)) inside))
      let node := .mapping (collectionTag p .mapping) pairs line
      return (node, ⟨v.anchor p.anchor node, by simp [inside] at hv; simp; omega⟩)
    | .nothing =>
      if h : t.size < s.size then
        demandNew p line t
        let node := .scalar (scalarTag g p "" true) "" .plain line
        return (node, ⟨t.anchor p.anchor node, by simpa using h⟩)
      else fail .nesting l.line
termination_by (s.size, 0)
decreasing_by all_goals simp [Prod.lex_def]; omega

/-- A node, or an empty one where one of some marks follows at once. -/
def part (g : Setting) (place : Place) (ends : List Mark) (line : Nat) (s : Rest) :
    Except Fault (NoLonger Node s) := do
  let (l, _) ← s.next g.cut
  if ends.any fun m => l.token = .mark m then return (empty line, ⟨s, by omega⟩)
  else
    let (node, ⟨t, ht⟩) ← read g place s
    return (node, ⟨t, by omega⟩)
termination_by (s.size, 1)
decreasing_by all_goals simp [Prod.lex_def]

/-- The items of a block sequence, its end included. -/
def blockItems (g : Setting) (inSequences : Bool) (s : Rest) :
    Except Fault (NoLonger (List Node) s) := do
  let (l, ⟨t, ht⟩) ← s.next g.cut
  if l.token = .mark .blockEntry then
    let (item, ⟨u, hu⟩) ← part g ⟨true, false, inSequences⟩ [.blockEntry, .blockEnd] l.line t
    let (items, ⟨v, hv⟩) ← blockItems g inSequences u
    return (item :: items, ⟨v, by omega⟩)
  else if l.token = .mark .blockEnd then return ([], ⟨t, by omega⟩)
  else fail .nesting l.line
termination_by (s.size, 2)
decreasing_by all_goals simp [Prod.lex_def]; omega

/-- The items of a block sequence without indentation, after the indicator of the first item. -/
def indentlessItems (g : Setting) (inSequences : Bool) (line : Nat) (s : Rest) :
    Except Fault (NoLonger (List Node) s) := do
  let (item, ⟨t, ht⟩) ←
    part g ⟨true, false, inSequences⟩ [.blockEntry, .key, .value, .blockEnd] line s
  let (l, ⟨u, hu⟩) ← t.next g.cut
  if l.token = .mark .blockEntry then
    let (items, ⟨v, hv⟩) ← indentlessItems g inSequences l.line u
    return (item :: items, ⟨v, by omega⟩)
  else return ([item], ⟨t, ht⟩)
termination_by (s.size, 2)
decreasing_by all_goals simp [Prod.lex_def]; try omega

/-- A value after its indicator, or an empty one where there is none. -/
def valuePart (g : Setting) (place : Place) (ends : List Mark) (s : Rest) :
    Except Fault (NoLonger Node s) := do
  let (l, ⟨t, ht⟩) ← s.next g.cut
  if l.token = .mark .value then
    let (node, ⟨u, hu⟩) ← part g place ends l.line t
    return (node, ⟨u, by omega⟩)
  else return (empty l.line, ⟨s, by omega⟩)
termination_by (s.size, 2)
decreasing_by all_goals simp [Prod.lex_def]; omega

/-- The pairs of a block mapping, its end included. -/
def blockPairs (g : Setting) (s : Rest) : Except Fault (NoLonger (List (Node × Node)) s) := do
  let (l, ⟨t, ht⟩) ← s.next g.cut
  if l.token = .mark .key then
    let (key, ⟨u, hu⟩) ← part g ⟨true, true, false⟩ [.key, .value, .blockEnd] l.line t
    let (value, ⟨v, hv⟩) ← valuePart g ⟨true, true, false⟩ [.key, .value, .blockEnd] u
    let (pairs, ⟨w, hw⟩) ← blockPairs g v
    return ((key, value) :: pairs, ⟨w, by omega⟩)
  else if l.token = .mark .blockEnd then return ([], ⟨t, by omega⟩)
  else fail .nesting l.line
termination_by (s.size, 3)
decreasing_by all_goals simp [Prod.lex_def]; omega

/-- The key and the value of a pair in brackets, after the mark of the key. -/
def flowPair (g : Setting) (close : Mark) (line : Nat) (s : Rest) :
    Except Fault (NoLonger (Node × Node) s) := do
  let (key, ⟨t, ht⟩) ← part g ⟨false, false, false⟩ [.value, .flowEntry, close] line s
  let (value, ⟨u, hu⟩) ← valuePart g ⟨false, false, false⟩ [.flowEntry, close] t
  return ((key, value), ⟨u, by omega⟩)
termination_by (s.size, 3)
decreasing_by all_goals simp [Prod.lex_def]; try omega

/-- The items of a sequence in brackets, its end included; between two items there is a comma. A pair
among them is a mapping of its own. -/
def flowItems (g : Setting) (inSequences first : Bool) (s : Rest) :
    Except Fault (NoLonger (List Node) s) := do
  let (l, ⟨t, ht⟩) ← s.next g.cut
  if l.token = .mark .closeSequence then return ([], ⟨t, by omega⟩)
  else if !first && l.token ≠ .mark .flowEntry then fail .nesting l.line
  else
    let ⟨u, hu⟩ : {r : Rest // r.size ≤ s.size} := if first then ⟨s, by omega⟩ else ⟨t, by omega⟩
    let (m, ⟨v, hv⟩) ← u.next g.cut
    if m.token = .mark .closeSequence then return ([], ⟨v, by omega⟩)
    else if m.token = .mark .key then
      let (pair, ⟨w, hw⟩) ← flowPair g .closeSequence m.line v
      let (items, ⟨x, hx⟩) ← flowItems g inSequences false w
      return (.mapping .mapping [pair] m.line :: items, ⟨x, by omega⟩)
    else
      let (item, ⟨w, hw⟩) ← read g ⟨false, false, inSequences⟩ u
      let (items, ⟨x, hx⟩) ← flowItems g inSequences false w
      return (item :: items, ⟨x, by omega⟩)
termination_by (s.size, 4)
decreasing_by all_goals simp [Prod.lex_def]; try omega

/-- The pairs of a mapping in brackets, its end included; between two pairs there is a comma. -/
def flowPairs (g : Setting) (first : Bool) (s : Rest) :
    Except Fault (NoLonger (List (Node × Node)) s) := do
  let (l, ⟨t, ht⟩) ← s.next g.cut
  if l.token = .mark .closeMapping then return ([], ⟨t, by omega⟩)
  else if !first && l.token ≠ .mark .flowEntry then fail .nesting l.line
  else
    let ⟨u, hu⟩ : {r : Rest // r.size ≤ s.size} := if first then ⟨s, by omega⟩ else ⟨t, by omega⟩
    let (m, ⟨v, hv⟩) ← u.next g.cut
    if m.token = .mark .closeMapping then return ([], ⟨v, by omega⟩)
    else if m.token = .mark .key then
      let (pair, ⟨w, hw⟩) ← flowPair g .closeMapping m.line v
      let (pairs, ⟨x, hx⟩) ← flowPairs g false w
      return (pair :: pairs, ⟨x, by omega⟩)
    else
      let (key, ⟨w, hw⟩) ← read g ⟨false, false, false⟩ u
      let (n, _) ← w.next g.cut
      let (pairs, ⟨x, hx⟩) ← flowPairs g false w
      return ((key, empty n.line) :: pairs, ⟨x, by omega⟩)
termination_by (s.size, 4)
decreasing_by all_goals simp [Prod.lex_def]; try omega

end

/-! ## Documents -/

/-- The handles that every document knows. -/
def defaultHandles : List (String × String) := [("!", "!"), ("!!", "tag:yaml.org,2002:")]

/-- The directives before a document: one version at most, of the first generation, and a handle is
declared only once. -/
def prologue (cut : Fault) (version : Bool) (handles : List (String × String)) (s : Rest) :
    Except Fault (NoLonger (List (String × String)) s) := do
  let (l, ⟨t, ht⟩) ← s.next cut
  match l.token with
  | .prologue (.version major) =>
    if version || major ≠ 1 then fail .nesting l.line
    else
      let (all, ⟨u, hu⟩) ← prologue cut true handles t
      return (all, ⟨u, by omega⟩)
  | .prologue (.tag handle start) =>
    if (handles.lookup handle).isSome then fail .nesting l.line
    else
      let (all, ⟨u, hu⟩) ← prologue cut version ((handle, start) :: handles) t
      return (all, ⟨u, by omega⟩)
  | .prologue .other =>
    let (all, ⟨u, hu⟩) ← prologue cut version handles t
    return (all, ⟨u, by omega⟩)
  | _ => return (handles ++ defaultHandles, ⟨s, by omega⟩)
termination_by s.size

/-- Whether the token begins or ends a document or stands before one. -/
def isBoundary : Token → Bool
  | .prologue _ | .mark .documentStart | .mark .documentEnd | .mark .streamEnd => true
  | _ => false

/-- Passes over the marks that end documents. -/
def dropDocumentEnds (s : Rest) : Rest :=
  { s with lexemes := s.lexemes.dropWhile fun l => l.token = .mark .documentEnd }

/-- A document with a start mark, or nothing when the text ends. -/
def explicitDocument (schema : Schema) (cut : Fault) (s : Rest) :
    Except Fault (Option (Node × Rest)) := do
  let s := dropDocumentEnds s
  let (first, _) ← s.next cut
  if first.token = .mark .streamEnd then return none
  else
    let (handles, ⟨t, _⟩) ← prologue cut false [] s
    let (l, ⟨u, _⟩) ← t.next cut
    if l.token ≠ .mark .documentStart then fail .nesting l.line
    else
      let (m, _) ← u.next cut
      if isBoundary m.token then return some (empty m.line, u)
      else
        let (node, ⟨v, _⟩) ← read ⟨schema, handles, cut⟩ ⟨true, false, true⟩ u
        return some (node, v)

/-- The first document, which needs no start mark. -/
def firstDocument (schema : Schema) (cut : Fault) (s : Rest) :
    Except Fault (Option (Node × Rest)) := do
  let (l, _) ← s.next cut
  if isBoundary l.token && l.token ≠ .mark .documentEnd then explicitDocument schema cut s
  else
    let (node, ⟨t, _⟩) ← read ⟨schema, defaultHandles, cut⟩ ⟨true, false, true⟩ s
    return some (node, t)

/-- Fails where another document begins. -/
def demandLast (cut : Fault) (s : Rest) : Except Fault Unit := do
  let s := dropDocumentEnds s
  let (first, _) ← s.next cut
  if first.token = .mark .streamEnd then return ()
  else
    let (_, ⟨t, _⟩) ← prologue cut false [] s
    let (l, _) ← t.next cut
    if l.token = .mark .documentStart then fail .references first.line else fail .nesting l.line

/-- The node of the only document in a text; an empty text has none. -/
def ofText (schema : Schema) (text : List Char) : Except Fault (Option Node) := do
  let (lexemes, failure) ← tokens text
  let cut := failure.getD (.yaml ⟨.tokens, none⟩)
  match ← firstDocument schema cut { lexemes := lexemes.drop 1 } with
  | none => return none
  | some (node, rest) =>
    demandLast cut rest
    return some node

end Node

end PipelineTemplate.Yaml
