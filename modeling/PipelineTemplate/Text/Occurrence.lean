/-!
# Occurrences of one text in another

Occurrences are searched from the left and do not overlap.
-/

namespace PipelineTemplate.Text

/-- What follows a given beginning. -/
def dropPrefix? : List Char → List Char → Option (List Char)
  | [], cs => some cs
  | _ :: _, [] => none
  | p :: ps, c :: cs => if p = c then dropPrefix? ps cs else none

theorem dropPrefix?_eq_some {ps cs rest : List Char} :
    dropPrefix? ps cs = some rest ↔ cs = ps ++ rest := by
  induction ps generalizing cs with
  | nil => simp [dropPrefix?]
  | cons p ps ih =>
    cases cs with
    | nil => simp [dropPrefix?]
    | cons c cs => by_cases h : p = c <;> simp [dropPrefix?, h, ih, eq_comm]

/-- The text before and after the first occurrence. -/
def cut? (separator : List Char) : List Char → Option (List Char × List Char)
  | [] => if separator = [] then some ([], []) else none
  | c :: cs =>
    match dropPrefix? separator (c :: cs) with
    | some rest => some ([], rest)
    | none => (cut? separator cs).map fun (before, after) => (c :: before, after)

def hasInfix (part whole : List Char) : Bool := (cut? part whole).isSome

/-- The first piece between separators and the pieces after it; `skip` counts the characters of a
separator that are still to be passed over. -/
def splitFrom (separator : List Char) : Nat → List Char → List Char × List (List Char)
  | _, [] => ([], [])
  | skip + 1, _ :: cs => splitFrom separator skip cs
  | 0, c :: cs =>
    if separator.isPrefixOf (c :: cs) then
      let (piece, pieces) := splitFrom separator (separator.length - 1) cs
      ([], piece :: pieces)
    else
      let (piece, pieces) := splitFrom separator 0 cs
      (c :: piece, pieces)

/-- The pieces between the occurrences of a separator that is not empty. -/
def split (separator text : List Char) : List (List Char) :=
  let (piece, pieces) := splitFrom separator 0 text
  piece :: pieces

/-- The text with the occurrences replaced; `skip` is as in `splitFrom`. -/
def replaceFrom (search replacement : List Char) : Nat → List Char → List Char
  | _, [] => []
  | skip + 1, _ :: cs => replaceFrom search replacement skip cs
  | 0, c :: cs =>
    if search.isPrefixOf (c :: cs) then
      replacement ++ replaceFrom search replacement (search.length - 1) cs
    else c :: replaceFrom search replacement 0 cs

/-- Replaces the occurrences of a text that is not empty. -/
def replace (search replacement text : List Char) : List Char :=
  replaceFrom search replacement 0 text

/-- The pieces with a separator between each two. -/
def join (separator : String) (pieces : List String) : String :=
  String.intercalate separator pieces

def contains (part whole : String) : Bool := hasInfix part.toList whole.toList

def replaceText (search replacement text : String) : String :=
  String.ofList (replace search.toList replacement.toList text.toList)

end PipelineTemplate.Text
