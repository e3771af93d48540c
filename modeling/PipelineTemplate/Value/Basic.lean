import PipelineTemplate.Number.Decimal
import PipelineTemplate.Calendar

/-!
# Values

A document is a tree of values. Apart from null there is an undefined value, the result of an
expression that resolves to nothing: undefined entries disappear from expanded collections. A mapping
read from a document keeps all its pairs in order, repeated keys included; elsewhere the keys of a
mapping are distinct. Some lists also give access to their items by alias.
-/

namespace PipelineTemplate

/-- The functions that a caller may put among the values. -/
inductive Callable where
  /-- Gives the list of its arguments. -/
  | arguments
  /-- Gives its only argument. -/
  | first
  /-- Gives a fixed text. -/
  | custom
  /-- Always fails. -/
  | failing
  deriving DecidableEq

inductive Value where
  | null
  | undefined
  | bool (b : Bool)
  | number (n : Number.Numeric)
  | text (s : String)
  | date (d : Date)
  | time (t : DateTime)
  | list (items : List Value)
  | tuple (items : List Value)
  | aliased (items : List Value) (aliases : List (String × Value))
  /-- A mapping with distinct keys. -/
  | map (entries : List (Value × Value))
  /-- A mapping as written, with repeated keys. -/
  | pairs (entries : List (Value × Value))
  /-- A reference to a template; the parameters are undefined when the reference passes none. -/
  | reference (template parameters : Value)
  | callable (f : Callable)

namespace Value

instance : Inhabited Value := ⟨.undefined⟩

def int (n : Int) : Value := .number (.int n)

def isUndefined : Value → Bool
  | .undefined => true
  | _ => false

/-- Null and undefined carry no value. -/
def isMissing : Value → Bool
  | .null | .undefined => true
  | _ => false

def isNull : Value → Bool
  | .null => true
  | _ => false

def isText : Value → Bool
  | .text _ => true
  | _ => false

def isNumber : Value → Bool
  | .number _ => true
  | _ => false

def text? : Value → Option String
  | .text s => some s
  | _ => none

/-- The items of a list of either kind; a tuple is not a list. -/
def list? : Value → Option (List Value)
  | .list items | .aliased items _ => some items
  | _ => none

/-- The items of a list or a tuple. -/
def items? : Value → Option (List Value)
  | .list items | .aliased items _ | .tuple items => some items
  | _ => none

/-- The pairs of a mapping, repeated keys included. -/
def pairs? : Value → Option (List (Value × Value))
  | .map entries | .pairs entries => some entries
  | _ => none

def isMapping (v : Value) : Bool := v.pairs?.isSome

mutual

/-- Equality of contents: numbers by value, a truth value as zero or one, lists and tuples item by
item, mappings by their keys and last values. -/
def equal : Value → Value → Bool
  | .null, .null | .undefined, .undefined => true
  | .bool a, .bool b => a == b
  | .bool a, .number n | .number n, .bool a => n.eq (.int (if a then 1 else 0))
  | .number m, .number n => m.eq n
  | .text s, .text t => s == t
  | .date d, .date e => d == e
  | .time d, .time e => d == e
  | .callable f, .callable g => f == g
  | .list xs, .list ys | .list xs, .aliased ys _ | .aliased xs _, .list ys
  | .aliased xs _, .aliased ys _ | .tuple xs, .tuple ys => equalItems xs ys
  | .map xs, .map ys | .map xs, .pairs ys | .pairs xs, .map ys | .pairs xs, .pairs ys =>
    equalEntries xs ys && ys.all fun entry => equalSomeKey xs entry.1
  | .reference s p, .reference t q => equal s t && equal p q
  | _, _ => false

def equalItems : List Value → List Value → Bool
  | [], [] => true
  | x :: xs, y :: ys => equal x y && equalItems xs ys
  | _, _ => false

/-- Whether some key of the entries equals the given one. -/
def equalSomeKey : List (Value × Value) → Value → Bool
  | [], _ => false
  | (k, _) :: rest, key => equal k key || equalSomeKey rest key

/-- Whether each entry that is the last with its key has the value that the others have last. -/
def equalEntries : List (Value × Value) → List (Value × Value) → Bool
  | [], _ => true
  | (k, v) :: rest, others =>
    (equalSomeKey rest k ||
      (match others.reverse.find? (fun entry => equal k entry.1) with
        | some (_, w) => equal v w
        | none => false)) && equalEntries rest others

end

end Value

end PipelineTemplate
