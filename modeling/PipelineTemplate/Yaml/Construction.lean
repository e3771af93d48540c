import PipelineTemplate.Number.Whole
import PipelineTemplate.Value.Mapping
import PipelineTemplate.Yaml.Node

/-!
# The values of nodes

Each node gives a value as its tag says. The pairs of a mapping that is merged into another stand
before the pairs of that one, and of several merged mappings the last comes first.

A document that is a sequence is built level by level, so of several faults the one that is closest to
the root is reported; everywhere else it is the first in the text.
-/

namespace PipelineTemplate.Yaml

/-- How texts, whole numbers and mappings are built. -/
structure Rules where
  text : String → Style → Except Fault Value
  whole : String → Except Fault Int
  /-- Whether a mapping keeps each key only once. -/
  distinctKeys : Bool

namespace Rules

/-! ## Scalars -/

/-- A value that a text must spell. -/
def spelled {α : Type} (mismatch : TagMismatch) : Option α → Except Fault α
  | some a => .ok a
  | none => .error (.tag mismatch)

/-- A number in base sixty, its parts given from the first. -/
def sexagesimal (parts : List Int) : Int := parts.foldl (fun n part => 60 * n + part) 0

/-- The same for doubles, added up from the last part. -/
def sexagesimalReal (parts : List Number.Binary64) : Except Fault Number.Numeric :=
  let step (acc : Number.Numeric × Int) (part : Number.Binary64) :
      Except Fault (Number.Numeric × Int) :=
    match (do
      let scaled ← Number.Numeric.mul (.float part) (.int acc.2)
      Number.Numeric.add acc.1 scaled : Except Number.Numeric.Undefined Number.Numeric) with
    | .ok sum => .ok (sum, acc.2 * 60)
    | .error cause => .error (.arithmetic cause)
  (·.1) <$> parts.reverse.foldlM step (.float (.zero false), 1)

def withoutLowLines (s : String) : List Char := s.toList.filter (· ≠ '_')

/-- Splits a sign off; the flag is for a minus. -/
def splitSign : List Char → Bool × List Char
  | '-' :: cs => (true, cs)
  | '+' :: cs => (false, cs)
  | cs => (false, cs)

/-- A double, with low lines anywhere, perhaps in base sixty. -/
def real (s : String) : Except Fault Number.Numeric :=
  let (negative, cs) := splitSign (Text.lower (String.ofList (withoutLowLines s))).toList
  let signed (n : Number.Numeric) : Number.Numeric := if negative then n.neg else n
  if withoutLowLines s = [] then .error (.tag .emptyNumber)
  else if cs = ".inf".toList then .ok (.float (.infinite negative))
  else if cs = ".nan".toList then .ok (.float .nan)
  else if ':' ∈ cs then do
    let parts ← (Schema.colonPieces cs).mapM fun part =>
      spelled .number (Number.readDouble? part)
    signed <$> sexagesimalReal parts
  else do
    let x ← spelled .number (Number.readDouble? cs)
    return signed (.float x)

/-- A truth value in any of its words. -/
def truth (s : String) : Except Fault Bool :=
  let word := Text.lower s
  if word ∈ ["yes", "true", "on"] then .ok true
  else if word ∈ ["no", "false", "off"] then .ok false
  else .error (.tag .truth)

/-- The date that a stamp names. A fraction of a second keeps six digits, and an offset stays below a
day. -/
def dateOf (s : Stamp) : Except Fault Value :=
  let date : Date := ⟨Text.numeral s.year, Text.numeral s.month, Text.numeral s.day⟩
  match s.time with
  | none => if date.isValid then .ok (.date date) else .error (.tag .number)
  | some (hour, minute, second) =>
    let fraction := s.fraction.take 6
    let offset : Option Offset := s.zone.map fun
      | none => ⟨false, 0⟩
      | some (negative, hours, minutes) =>
        let total := 60 * Text.numeral hours + Text.numeral minutes
        ⟨negative && total ≠ 0, total⟩
    let time : DateTime :=
      { date with
        hour := Text.numeral hour
        minute := Text.numeral minute
        second := Text.numeral second
        microsecond := Text.numeral (fraction ++ List.replicate (6 - fraction.length) '0')
        offset := offset }
    if time.isValid && offset.all (·.minutes < 24 * 60) then .ok (.time time)
    else .error (.tag .number)

def date (s : String) : Except Fault Value :=
  let cs := s.toList
  match Stamp.read? (if cs.getLast? = some '\n' then cs.dropLast else cs) with
  | some stamp => dateOf stamp
  | none => .error (.tag .form)

end Rules

namespace Node

/-! ## Parts of mappings -/

def tag : Node → Option Tag
  | .scalar tag .. | .sequence tag .. | .mapping tag .. => some tag
  | .enclosing .. => none

def isMerge (node : Node) : Bool := node.tag = some .merge

mutual

/-- Checks that what is merged into a mapping are mappings. -/
def checkMerges : List (Node × Node) → Except Fault Unit
  | [] => .ok ()
  | (key, value) :: rest => do
    if key.isMerge then checkMerged value
    checkMerges rest

def checkMerged : Node → Except Fault Unit
  | .mapping _ pairs _ => checkMerges pairs
  | .sequence _ items _ => checkMergedItems items
  | node => fail .values node.line

def checkMergedItems : List Node → Except Fault Unit
  | [] => .ok ()
  | .mapping _ pairs _ :: rest => do
    checkMerges pairs
    checkMergedItems rest
  | node :: _ => fail .values node.line

end

mutual

/-- The text of a scalar; a mapping has that of its entry for the default value. -/
def scalarText : Node → Except Fault String
  | .scalar _ text _ _ => .ok text
  | .mapping _ pairs line => defaultText line pairs
  | node => fail .values node.line

def defaultText (line : Nat) : List (Node × Node) → Except Fault String
  | [] => fail .values line
  | (key, value) :: rest =>
    if key.tag = some .value then scalarText value else defaultText line rest

end

/-- Whether a value can be a key. -/
def isKey : Value → Bool
  | .list _ | .aliased .. | .map _ | .pairs _ => false
  | _ => true

/-! ## Values -/

/-- The value of a node that is no collection in the sense of its tag. -/
def plainValue (rules : Rules) (node : Node) : Except Fault Value :=
  match node.tag with
  | some .text => do
    let text ← node.scalarText
    match node with
    | .scalar _ _ style _ => rules.text text style
    | _ => if rules.distinctKeys then return .text text else .error (.tag .form)
  | some .integer => do return .int (← rules.whole (← node.scalarText))
  | some .real => do return .number (← Rules.real (← node.scalarText))
  | some .truth => do return .bool (← Rules.truth (← node.scalarText))
  | some .null => do
    let _ ← node.scalarText
    return .null
  | some .date => do
    let text ← node.scalarText
    match node with
    | .scalar .. => Rules.date text
    | _ => .error (.tag .mapping)
  | some .mapping =>
    if rules.distinctKeys then fail .values node.line
    else match node with
      | .scalar _ text _ _ => if text = "" then .ok (.pairs []) else .error (.tag .number)
      | .sequence _ [] _ => .ok (.pairs [])
      | _ => .error (.tag .mapping)
  | _ => fail .values node.line

mutual

/-- The value of a node. A node around it cannot be built, unless it is a sequence among sequences
only. -/
def toValue (rules : Rules) : Node → Except Fault Value
  | .sequence .sequence items _ => do return .list (← itemValues rules items)
  | .mapping .mapping pairs _ => do
    checkMerges pairs
    let merged ← mergedValues rules pairs
    let own ← ownValues rules pairs
    return if rules.distinctKeys then .map (Entries.ofPairs (merged ++ own)) else .pairs (merged ++ own)
  | .enclosing inSequences line => if inSequences then .ok .null else fail .values line
  | .scalar tag text style line => plainValue rules (.scalar tag text style line)
  | .sequence tag items line => plainValue rules (.sequence tag items line)
  | .mapping tag pairs line => plainValue rules (.mapping tag pairs line)

def itemValues (rules : Rules) : List Node → Except Fault (List Value)
  | [] => .ok []
  | item :: items => do
    let value ← toValue rules item
    let values ← itemValues rules items
    return value :: values

/-- The pairs that are merged into a mapping. -/
def mergedValues (rules : Rules) : List (Node × Node) → Except Fault Entries
  | [] => .ok []
  | (key, .mapping _ pairs _) :: rest =>
    if key.isMerge then do
      let outer ← mergedValues rules pairs
      let own ← ownValues rules pairs
      let more ← mergedValues rules rest
      return outer ++ own ++ more
    else mergedValues rules rest
  | (key, .sequence _ items _) :: rest =>
    if key.isMerge then do
      let merged ← mergedItems rules items
      let more ← mergedValues rules rest
      return merged ++ more
    else mergedValues rules rest
  | _ :: rest => mergedValues rules rest

/-- The pairs of several mappings, those of the last one first. -/
def mergedItems (rules : Rules) : List Node → Except Fault Entries
  | [] => .ok []
  | .mapping _ pairs _ :: rest => do
    let later ← mergedItems rules rest
    let outer ← mergedValues rules pairs
    let own ← ownValues rules pairs
    return later ++ outer ++ own
  | _ :: rest => mergedItems rules rest

/-- The pairs that are written in a mapping itself. A key for the default value is a text. -/
def ownValues (rules : Rules) : List (Node × Node) → Except Fault Entries
  | [] => .ok []
  | (key, value) :: rest =>
    if key.isMerge then ownValues rules rest
    else do
      let k ← match key with
        | .scalar .value text style line => plainValue rules (.scalar .text text style line)
        | key => toValue rules key
      if !isKey k then fail .values key.line
      let v ← toValue rules value
      let more ← ownValues rules rest
      return (k, v) :: more

end

mutual

/-- The value of a node among sequences only, or the first of the faults closest to the root with its
level. -/
def levelValue (rules : Rules) (level : Nat) : Node → Except (Nat × Fault) Value
  | .sequence .sequence items _ => do return .list (← levelValues rules (level + 1) items)
  | node =>
    let level := if node.tag = some .sequence then level + 1 else level
    (toValue rules node).mapError (level, ·)

def levelValues (rules : Rules) (level : Nat) : List Node → Except (Nat × Fault) (List Value)
  | [] => .ok []
  | item :: items =>
    match levelValue rules level item, levelValues rules level items with
    | .ok value, .ok values => .ok (value :: values)
    | .error e, .error f => .error (if f.1 < e.1 then f else e)
    | .error e, .ok _ | .ok _, .error e => .error e

end

mutual

/-- Whether a sequence contains itself. -/
def isEndless : Node → Bool
  | .scalar .. => false
  | .sequence _ items _ => anyEndless items
  | .mapping _ pairs _ => anyPairEndless pairs
  | .enclosing inSequences _ => inSequences

def anyEndless : List Node → Bool
  | [] => false
  | item :: items => isEndless item || anyEndless items

def anyPairEndless : List (Node × Node) → Bool
  | [] => false
  | (key, value) :: rest => isEndless key || isEndless value || anyPairEndless rest

end

/-- The value of a whole document. -/
def documentValue (rules : Rules) (node : Node) : Except Fault Value := do
  let value ← (levelValue rules 0 node).mapError (·.2)
  if node.isEndless then .error .endless else return value

end Node

/-! ## The older schema -/

/-- A whole number as the older schema writes it: low lines anywhere, binary, octal, hexadecimal or in
base sixty. -/
def olderWhole (s : String) : Except Fault Int :=
  let all := Rules.withoutLowLines s
  let (negative, cs) := Rules.splitSign all
  let signed (n : Int) : Int := if negative then -n else n
  let read (base : Nat) (cs : List Char) : Except Fault Int :=
    Rules.spelled .number (signed <$> Number.readWhole? base cs)
  match all, cs with
  | [], _ | _, [] => .error (.tag .emptyNumber)
  | _, ['0'] => .ok 0
  | _, '0' :: 'b' :: digits => read 2 digits
  | _, '0' :: 'x' :: digits => read 16 digits
  | _, '0' :: _ => read 8 cs
  | _, _ =>
    if ':' ∈ cs then do
      let parts ← (Schema.colonPieces cs).mapM fun part =>
        Rules.spelled .number (Number.readWhole? 10 part)
      return signed (Rules.sexagesimal parts)
    else read 10 cs

def olderRules : Rules := ⟨fun text _ => .ok (.text text), olderWhole, true⟩

/-- The value of a text under the older schema; an empty text is null. -/
def readOlder (text : List Char) : Except Fault Value := do
  match ← Node.ofText .older text with
  | none => return .null
  | some node => node.documentValue olderRules

end PipelineTemplate.Yaml
