import PipelineTemplate.Value.Json
import PipelineTemplate.Yaml.ScalarText

/-!
# Outlines

An outline is what is written of a value: scalars with their tags, sequences and mappings. It is laid
out in blocks: an item follows its hyphen on the same line, the value of a key follows its colon if it
is a scalar, and nested blocks are indented by two. A key that is empty, long, broken into lines or a
collection stands behind a question mark.
-/

namespace PipelineTemplate

/-- Doubles in documents: the mantissa always shows a point. -/
def Number.documentLayout : Number.Layout := ⟨-4, 16, true, 2, ".inf", ".nan"⟩

namespace Yaml

inductive Outline where
  | scalar (tag : Tag) (text : String)
  | sequence (items : List Outline)
  | mapping (entries : List (Outline × Outline))

end Yaml

namespace Value

mutual

/-- The value with references in plain form and mappings with distinct keys, from which undefined
entries are left out. -/
def settled : Value → Value
  | .list items | .tuple items | .aliased items _ => .list (settledItems items)
  | .map entries => .map (settledEntries entries)
  | .pairs entries => .map (Entries.ofPairs (settledEntries entries))
  | .reference template parameters => (Value.reference template parameters).toPlain
  | v => v

def settledItems : List Value → List Value
  | [] => []
  | v :: vs => settled v :: settledItems vs

def settledEntries : List (Value × Value) → List (Value × Value)
  | [] => []
  | (k, v) :: rest => (settled k, settled v) :: settledEntries rest

end

mutual

/-- The outline of a settled value; there is none for a callable. -/
def outline? : Value → Option Yaml.Outline
  | .null | .undefined => some (.scalar .null "null")
  | .bool b => some (.scalar .truth (if b then "true" else "false"))
  | .number (.int n) => some (.scalar .integer (Text.ofInt n))
  | .number (.float x) => some (.scalar .real (Number.documentLayout.render x))
  | .text s => some (.scalar .text s)
  | .date d => some (.scalar .date d.text)
  | .time t => some (.scalar .date (t.text " "))
  | .list items | .tuple items | .aliased items _ => .sequence <$> outlineItems? items
  | .map entries | .pairs entries => .mapping <$> outlineEntries? entries
  | .reference .. | .callable _ => none

def outlineItems? : List Value → Option (List Yaml.Outline)
  | [] => some []
  | v :: vs => do return (← outline? v) :: (← outlineItems? vs)

/-- The outlines of the entries that are defined. -/
def outlineEntries? : List (Value × Value) → Option (List (Yaml.Outline × Yaml.Outline))
  | [] => some []
  | (_, .undefined) :: rest => outlineEntries? rest
  | (k, v) :: rest => do return (← outline? k, ← outline? v) :: (← outlineEntries? rest)

end

end Value

namespace Yaml.Outline

/-- The length that the written tag of a scalar would have. -/
def tagLength : Tag → Nat
  | .null | .truth => 6
  | .real => 7
  | .date => 11
  | _ => 5

/-- Whether a key may stand before a colon on one line. -/
def isSimpleKey : Outline → Bool
  | .scalar tag text =>
    tagLength tag + text.length < 128 && text ≠ "" && !text.toList.any ScalarText.isLineBreak
  | .sequence items => items.isEmpty
  | .mapping entries => entries.isEmpty

/-- Whether the outline takes lines of its own. -/
def isBlock : Outline → Bool
  | .scalar .. => false
  | .sequence items => !items.isEmpty
  | .mapping entries => !entries.isEmpty

/-- A part after some characters. -/
def behind (start : List Char) (w : Written) : Written := { w with text := start ++ w.text }

/-- A part and then another on the next line, at an indentation. -/
def above (indent : Nat) (first second : Written) : Written :=
  { second with
    text := first.text ++ (if first.endsLine then [] else ['\n']) ++
      List.replicate indent ' ' ++ second.text }

/-- Parts one below the other, from a line that is indented already. -/
def stacked (indent : Nat) (first : Written) (others : List Written) : Written :=
  others.foldl (above indent) first

/-- An entry of a mapping at an indentation, from its key and its value further in. -/
def entry (indent : Nat) (simpleKey blockValue : Bool) (key value : Written) : Written :=
  if simpleKey then
    let start := key.text ++ [':']
    if blockValue then above (indent + 2) ⟨start, false, false⟩ value
    else behind (start ++ [' ']) value
  else above indent (behind ['?', ' '] key) (behind [':', ' '] value)

mutual

/-- The outline from a line that is indented already; the following lines are indented here. -/
def block (indent : Nat) : Outline → Written
  | .scalar tag text => ScalarText.write indent tag text
  | .sequence items =>
    match blockItems indent items with
    | [] => ⟨['[', ']'], false, false⟩
    | first :: others => stacked indent first others
  | .mapping entries =>
    match blockEntries indent entries with
    | [] => ⟨['\x7b', '\x7d'], false, false⟩
    | first :: others => stacked indent first others

def blockItems (indent : Nat) : List Outline → List Written
  | [] => []
  | item :: items => behind ['-', ' '] (block (indent + 2) item) :: blockItems indent items

def blockEntries (indent : Nat) : List (Outline × Outline) → List Written
  | [] => []
  | (key, value) :: entries =>
    entry indent key.isSimpleKey value.isBlock (block (indent + 2) key) (block (indent + 2) value) ::
      blockEntries indent entries

end

/-- The text of a document. A plain scalar alone needs a mark of the end. -/
def document (o : Outline) : String :=
  let (w, isOpen) := match o with
    | .scalar tag text =>
      let w := block 2 (.scalar tag text)
      (w, w.isOpen || ScalarText.isPlain tag text)
    | o =>
      let w := block 0 o
      (w, w.isOpen)
  String.ofList (w.text ++ (if w.endsLine then [] else ['\n']) ++
    if isOpen then ['.', '.', '.', '\n'] else [])

end Yaml.Outline

/-- The text of a value as a document; there is none for a callable. -/
def Value.toYaml? (v : Value) : Option String := v.settled.outline?.map Yaml.Outline.document

end PipelineTemplate
