import PipelineTemplate.Text.Occurrence
import PipelineTemplate.Yaml.Construction

/-!
# Expressions in YAML text

Expressions would upset the reading of a document, so they are taken out of its text before and put
back into the texts of the values afterwards. A numbered mark stands for an expression on one line; of
one that runs over several lines only the delimiters are replaced, and the folding of its lines is that
of the text around it. An expression in a quoted scalar is read with the escapes of that scalar.
-/

namespace PipelineTemplate.Yaml

namespace Protected

def opening : List Char := "$\x7b\x7b".toList

def closing : List Char := "\x7d\x7d".toList

def openMark : List Char := "__AZURE_EXPR_OPEN__".toList

def closeMark : List Char := "__AZURE_EXPR_CLOSE__".toList

def markStart : List Char := "__AZURE_EXPR_".toList

def markEnd : List Char := "__".toList

/-- The mark of an expression on one line. -/
def mark (index : Nat) : List Char := markStart ++ Nat.toDigits 10 index ++ markEnd

/-- The expression at the front of a text, up to the first closing braces. -/
def spanOf? (cs : List Char) : Option (List Char) := do
  let rest ← Text.dropPrefix? opening cs
  let (body, _) ← Text.cut? closing rest
  return opening ++ body ++ closing

/-- The protected text and the expressions that were taken out; `skip` counts the characters of an
expression that are still to be passed over, and `index` the expressions before. -/
def protectFrom : Nat → Nat → List Char → List Char × List (List Char)
  | _, _, [] => ([], [])
  | skip + 1, index, _ :: cs => protectFrom skip index cs
  | 0, index, c :: cs =>
    match spanOf? (c :: cs) with
    | none =>
      let (text, spans) := protectFrom 0 index cs
      (c :: text, spans)
    | some span =>
      if '\n' ∈ span then
        let (text, spans) := protectFrom (span.length - 1) index cs
        (Text.replace closing closeMark (Text.replace opening openMark span) ++ text, spans)
      else
        let (text, spans) := protectFrom (span.length - 1) (index + 1) cs
        (mark index ++ text, span :: spans)

/-- Takes the expressions out of a text. -/
def protect (text : String) : String × List String :=
  let (cs, spans) := protectFrom 0 0 text.toList
  (String.ofList cs, spans.map String.ofList)

/-- The number of a mark at the front of a text and the length of the mark. -/
def markAt? (cs : List Char) : Option (Nat × Nat) := do
  let rest ← Text.dropPrefix? markStart cs
  let (digits, rest) := Text.spanDecimal rest
  if digits = [] then none
  else
    let _ ← Text.dropPrefix? markEnd rest
    return (Text.numeral digits, markStart.length + digits.length + markEnd.length)

def quote? : Style → Option Char
  | .single => some '\''
  | .double => some '"'
  | _ => none

/-- An expression without the escapes of the scalar that it stands in. -/
def unescape (span : String) (style : Style) : Except Fault (List Char) :=
  match quote? style with
  | none => .ok span.toList
  | some q => do
    match ← readOlder (q :: span.toList ++ [q]) with
    | .text s => return s.toList
    | _ => .error .spanNotText

/-- Puts expressions in the place of their marks; `skip` is as in `protectFrom`. -/
def restoreMarks (spans : List String) (style : Style) : Nat → List Char → Except Fault (List Char)
  | _, [] => .ok []
  | skip + 1, _ :: cs => restoreMarks spans style skip cs
  | 0, c :: cs =>
    match markAt? (c :: cs) with
    | none => do return c :: (← restoreMarks spans style 0 cs)
    | some (index, length) =>
      match spans[index]? with
      | none => do
        let rest ← restoreMarks spans style (length - 1) cs
        return (c :: cs).take length ++ rest
      | some span => do
        let text ← unescape span style
        let rest ← restoreMarks spans style (length - 1) cs
        return text ++ rest

/-- The text with its expressions that was loaded from a scalar of the given style. -/
def restored (text : String) (spans : List String) (style : Style) : Except Fault String := do
  let cs ← restoreMarks spans style 0 text.toList
  return String.ofList (Text.replace closeMark closing (Text.replace openMark opening cs))

/-- Puts the expressions back into a text. -/
def restore (text : String) (spans : List String) (style : Style) : Except Failure String :=
  (restored text spans style).mapError Fault.failure

end Protected

/-- A whole number as the core schema writes it: decimal, or with a mark of base sixteen or eight. -/
def coreWhole (s : String) : Except Fault Int :=
  Rules.spelled .number (match s.toList with
    | '0' :: 'x' :: digits | '0' :: 'X' :: digits => Number.readWhole? 16 digits
    | '0' :: 'o' :: digits | '0' :: 'O' :: digits => Number.readWhole? 8 digits
    | digits => Number.readWhole? 10 digits)

/-- The rules for documents from which expressions were taken out. -/
def coreRules (spans : List String) : Rules :=
  ⟨fun text style => do return .text (← Protected.restored text spans style), coreWhole, false⟩

/-- The value of a document with expressions, or why it has none; that of an empty one is null. -/
def read (text : String) : Except Fault Value := do
  let (protectedText, spans) := Protected.protect text
  match ← Node.ofText .core protectedText.toList with
  | none => return .null
  | some node => node.documentValue (coreRules spans)

/-- The failure of a document that a caller gives, perhaps as a file. -/
def documentFailure (file : Option String) : Fault → Failure
  | .yaml e => .malformedDocument .text (.yaml e) file e.line
  | fault => fault.failure

/-- Loads a document with expressions. -/
def load (text : String) (file : Option String) : Except Failure Value :=
  (read text).mapError (documentFailure file)

end PipelineTemplate.Yaml
