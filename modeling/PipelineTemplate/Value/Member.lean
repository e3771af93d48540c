import PipelineTemplate.Value.Coercion

/-!
# Access to members

Reading a member of a value by key or index. What cannot be found is undefined.
-/

namespace PipelineTemplate.Value

/-- The position that a value names in a sequence. -/
def toIndex? : Value → Option Nat
  | .number n =>
    match n.normalize with
    | .int i => if 0 ≤ i then some i.toNat else none
    | .float _ => none
  | .text s => Text.index? s
  | _ => none

/-- The item at a position, or the number of items for the key `length`. -/
def itemAt (items : List Value) (key : Value) : Value :=
  match key with
  | .text "length" => .int items.length
  | key => (key.toIndex?.bind (items[·]?)).getD .undefined

/-- The entry of a mapping; a text of digits also finds an integer key, and a number also finds the
key of its text. -/
def entryAt (entries : Entries) (key : Value) : Value :=
  match entries.get? key with
  | some v => v
  | none =>
    match key with
    | .text s => ((Text.index? s).bind fun n => entries.get? (.int n)).getD .undefined
    | .number n => entries.getD (.text n.text) .undefined
    | _ => .undefined

def member (target key : Value) : Value :=
  if key.isMissing then .undefined
  else
    match target with
    | .map entries | .pairs entries => entryAt entries key
    | .aliased items aliases =>
      match key with
      | .text s =>
        match aliases.lookup s with
        | some .undefined | none => itemAt items key
        | some v => v
      | key => itemAt items key
    | .list items | .tuple items => itemAt items key
    | .text s => itemAt (s.toList.map fun c => .text (String.singleton c)) key
    | .reference template parameters =>
      match key with
      | .text "template" => template
      | .text "parameters" => parameters
      | _ => .undefined
    | _ => .undefined

end PipelineTemplate.Value
