import PipelineTemplate.Value.Coercion

/-!
# Plain values and their JSON text

A plain value holds only null, truth values, finite numbers, texts, lists and mappings with textual
keys. Its JSON text is compact, or indented with one entry to a line.
-/

namespace PipelineTemplate

/-- Doubles in JSON text. -/
def Number.jsonLayout : Number.Layout := Number.literalLayout

namespace Value

/-- The entries of a plain mapping: of the entries with one key the last counts, undefined values are
left out, and keys become texts. -/
def plainMapping (entries : Entries) : Entries :=
  Entries.ofPairs ((Entries.ofPairs entries).filterMap fun (k, v) =>
    if v.isUndefined then none else some (.text k.toText, v))

mutual

/-- The plain form of a value: undefined entries of mappings are left out; undefined items, infinite
numbers and NaN become null. -/
def toPlain : Value → Value
  | .undefined => .null
  | .number (.float x) => if x.isFinite then .number (.float x) else .null
  | .date d => .text d.text
  | .time t => .text (t.text "T")
  | .list items | .aliased items _ | .tuple items => .list (plainItems items)
  | .map entries | .pairs entries => .map (plainMapping (plainEntries entries))
  | .reference template parameters =>
    .map ((.text "template", toPlain template) ::
      (if parameters.isUndefined then [] else [(.text "parameters", toPlain parameters)]))
  | v => v

def plainItems : List Value → List Value
  | [] => []
  | v :: vs => toPlain v :: plainItems vs

/-- The entries with their values in plain form, undefined ones as they are. -/
def plainEntries : List (Value × Value) → List (Value × Value)
  | [] => []
  | (k, v) :: rest => (k, if v.isUndefined then .undefined else toPlain v) :: plainEntries rest

end

/-- One character of a JSON string. -/
def jsonChar (c : Char) : List Char :=
  if c = '"' then ['\\', '"']
  else if c = '\\' then ['\\', '\\']
  else if c = '\n' then ['\\', 'n']
  else if c = '\r' then ['\\', 'r']
  else if c = '\t' then ['\\', 't']
  else if c.toNat = 8 then ['\\', 'b']
  else if c.toNat = 12 then ['\\', 'f']
  else if c.toNat < 0x20 then '\\' :: 'u' :: Text.hexPadded 4 c.toNat
  else [c]

def jsonString (s : String) : String :=
  String.ofList ('"' :: s.toList.flatMap jsonChar ++ ['"'])

/-- A bracketed list of parts; with an indent each part stands on a line of its own. -/
def jsonBlock (opening closing : String) (indent : Option Nat) (parts : List String) : String :=
  if parts.isEmpty then opening ++ closing
  else
    match indent with
    | none => opening ++ Text.join "," parts ++ closing
    | some depth =>
      let line (n : Nat) := "\n" ++ String.ofList (List.replicate n ' ')
      opening ++ line (depth + 2) ++ Text.join ("," ++ line (depth + 2)) parts ++ line depth ++ closing

mutual

/-- The JSON text of a plain value; nothing for a value that has none. The indent is the depth of the
line that the text starts on. -/
def jsonText? (indent : Option Nat) : Value → Option String
  | .null => some "null"
  | .bool b => some (if b then "true" else "false")
  | .number (.int n) => some (Text.ofInt n)
  | .number (.float x) => some (Number.jsonLayout.render x)
  | .text s => some (jsonString s)
  | .list items => (jsonItems? (indent.map (· + 2)) items).map (jsonBlock "[" "]" indent)
  | .map entries =>
    (jsonEntries? (indent.map (· + 2)) entries).map (jsonBlock "\x7b" "\x7d" indent)
  | _ => none

def jsonItems? (indent : Option Nat) : List Value → Option (List String)
  | [] => some []
  | v :: vs => do return (← jsonText? indent v) :: (← jsonItems? indent vs)

def jsonEntries? (indent : Option Nat) : List (Value × Value) → Option (List String)
  | [] => some []
  | (k, v) :: rest => do
    let text ← jsonText? indent v
    let separator := if indent.isSome then ": " else ":"
    return (jsonString k.toText ++ separator ++ text) :: (← jsonEntries? indent rest)

end

/-- The compact JSON text of any value but a callable. -/
def toJson? (v : Value) : Option String := jsonText? none v.toPlain

/-- The JSON text with an indent of two. -/
def toIndentedJson? (v : Value) : Option String := jsonText? (some 0) v.toPlain

end Value

end PipelineTemplate
