import PipelineTemplate.Directive

/-!
# Loops and branches

The contexts that a loop goes through, the key under which an iteration stores a computed entry, and
the conditions of branches.
-/

namespace PipelineTemplate.Expansion

/-- The directive that an item of a sequence consists of, and its body. -/
def directiveItem? : Value → Option (Directive × Value)
  | .map [(key, body)] | .pairs [(key, body)] => (Directive.ofKey? key).map (·, body)
  | _ => none

theorem sizeOf_body {item body : Value} {d : Directive} (h : directiveItem? item = some (d, body)) :
    sizeOf body < sizeOf item := by
  unfold directiveItem? at h
  split at h
  · obtain ⟨_, _, h⟩ := Option.map_eq_some_iff.1 h
    simp only [Prod.mk.injEq] at h
    obtain ⟨_, rfl⟩ := h
    simp
    omega
  · obtain ⟨_, _, h⟩ := Option.map_eq_some_iff.1 h
    simp only [Prod.mk.injEq] at h
    obtain ⟨_, rfl⟩ := h
    simp
    omega
  · cases h

theorem sizeOf_pos (v : Value) : 0 < sizeOf v := by
  cases v <;> simp <;> omega

/-- The name of the position in a loop. -/
def indexName (name : String) : String := name ++ "Index"

/-- The elements that a loop goes through, with their positions. -/
def loopElements (ctx : Context) (collection : String) : Run (List (Value × Nat)) :=
  return (← ctx.evaluateText collection).elements.zipIdx

/-- The context of an iteration: the element and its position have names in it. -/
def iteration (ctx : Context) (name : String) (element : Value × Nat) : Context :=
  ctx.child [(.text name, element.1), (.text (indexName name), .int element.2)]

@[simp] theorem iteration_templates (ctx : Context) (name : String) (element : Value × Nat) :
    (iteration ctx name element).templates = ctx.templates := rfl

/-- Reports a loop that is left out. -/
def reportMalformedLoop : Run Unit :=
  Run.report .debug .expansion "each_directive_malformed" [("collection", .text "")]

/-- The text of a scalar that can be a key. -/
def scalarKey? : Value → Option String
  | v@(.text _) | v@(.number _) | v@(.bool _) => some v.toText
  | _ => none

/-- The fields of an element that may name its iteration, by precedence. -/
def keyFields : List String := ["key", "name", "matrixKey", "label", "id", "value"]

/-- The key of an iteration: the element itself if it is a scalar, one of its fields, what the name of
the variable evaluates to, or else the position. -/
def iterationKey (ctx : Context) (name : String) : Run String := do
  let element := ctx.locals.getD (.text name) .undefined
  let position := (ctx.locals.getD (.text (indexName name)) .undefined).toText
  if element.isMissing then return position
  else
    match (scalarKey? element).or
        (keyFields.findSome? fun field => (element.get? (.text field)).bind scalarKey?) with
    | some key => return key
    | none => return (scalarKey? (← ctx.evaluateText name)).getD position

/-- The key that stands for the key of an iteration. -/
def computedKey : Value := .text "--"

/-- Merges the entries of an iteration; a computed entry comes first. -/
def mergeIteration (ctx : Context) (name : String) (merged branch : Entries) : Run Entries := do
  match branch.get? computedKey with
  | none => return merged.update branch
  | some value =>
    let key ← iterationKey ctx name
    return (merged.insert (.text key) value).update (branch.erase computedKey)

/-- Whether the condition of a branch holds. -/
def holds (ctx : Context) (d : Directive) : Run Bool :=
  let test (kind condition : String) : Run Bool := do
    let result ← ctx.evaluateText condition
    Run.report .debug .expansion "condition_evaluated"
      [("kind", .text kind), ("condition", .text condition), ("result", .bool result.isTrue)]
    return result.isTrue
  match d with
  | .ifTrue condition => test "if" condition
  | .elseIf condition => test "elseif" condition
  | _ => do
    Run.report .debug .expansion "conditional_else_taken" []
    return true

end PipelineTemplate.Expansion
