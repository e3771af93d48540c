import PipelineTemplate.Value.Basic

/-!
# Mappings

Look-up and update of the entries of mappings. The last entry with a key is the one that counts. An
update keeps the place and the spelling of a key that is already there, and puts a new key at the end.
-/

namespace PipelineTemplate

abbrev Entries := List (Value × Value)

namespace Entries

/-- The value that the key has last. -/
def get? (key : Value) : Entries → Option Value
  | [] => none
  | (k, v) :: rest =>
    match get? key rest with
    | some w => some w
    | none => if k.equal key then some v else none

def getD (key default : Value) (entries : Entries) : Value := (entries.get? key).getD default

def hasKey (key : Value) (entries : Entries) : Bool := (entries.get? key).isSome

/-- Gives a key a value, in the first place that the key has or else at the end. -/
def insert (key value : Value) : Entries → Entries
  | [] => [(key, value)]
  | (k, v) :: rest =>
    if k.equal key then (k, value) :: rest.filter fun (k, _) => !k.equal key
    else (k, v) :: insert key value rest

/-- The entries with distinct keys: each key at its first place with its last value. -/
def ofPairs (pairs : Entries) : Entries :=
  pairs.foldl (fun entries (k, v) => insert k v entries) []

/-- The entries updated by others, one after the other. -/
def update (entries others : Entries) : Entries :=
  others.foldl (fun entries (k, v) => insert k v entries) entries

def erase (key : Value) (entries : Entries) : Entries :=
  entries.filter fun (k, _) => !k.equal key

@[simp] theorem update_nil (entries : Entries) : entries.update [] = entries := rfl

@[simp] theorem update_cons (entries others : Entries) (k v : Value) :
    entries.update ((k, v) :: others) = (entries.insert k v).update others := rfl

end Entries

namespace Value

/-- The entries of a mapping with distinct keys. -/
def entries? : Value → Option Entries
  | .map entries => some entries
  | .pairs entries => some (Entries.ofPairs entries)
  | _ => none

/-- The value of a key in a mapping; nothing for a value that is no mapping. -/
def get? (v key : Value) : Option Value := v.pairs?.bind (Entries.get? key)

/-- The value of a textual key, undefined where there is none. -/
def field (v : Value) (key : String) : Value := (v.get? (.text key)).getD .undefined

/-- A template reference: either a reference value or any mapping with a template entry. -/
def reference? : Value → Option (Value × Value)
  | .reference template parameters => some (template, parameters)
  | .map entries | .pairs entries =>
    (Entries.get? (.text "template") entries).map fun template =>
      (template, Entries.getD (.text "parameters") .undefined entries)
  | _ => none

end Value

end PipelineTemplate
