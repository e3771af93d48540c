import PipelineTemplate.Expansion.Loop
import PipelineTemplate.Parameters
import PipelineTemplate.Template.Resolution

/-!
# Expansion

The value that a document becomes when its expressions are evaluated, its directives are carried out
and the templates in its sequences are replaced by what they contribute.

Two modes share all rules but one. While templates are resolved, each one goes a level down, and there
are as many levels as templates may be nested. While templates are preserved, as in the parameters that
are passed to a template, a reference stays, and what becomes of its own parameters is left to a keeper.
They are expanded in turn; as they may come out of an expression, the number of such steps is limited, and
beyond it references lead to each other for ever.
-/

namespace PipelineTemplate.Expansion

inductive Mode where
  /-- References to templates are replaced by what the templates contribute. -/
  | resolving
  /-- References to templates are kept. -/
  | preserving
  deriving DecidableEq

namespace Mode

def stage : Mode → Nat
  | .resolving => 1
  | .preserving => 0

end Mode

/-- What becomes of the parameters of a reference that is kept. -/
abbrev Keeper := Context → Value → Run Value

/-- A document without its declarations of parameters. -/
def withoutParameters (document : Value) : Value :=
  match document.pairs? with
  | some pairs => .pairs (pairs.filter fun (key, _) => !key.equal (.text "parameters"))
  | none => document

/-- The parameters of a template: what it declares under what it is passed. -/
def templateParameters (declared passed : Entries) : Entries :=
  declared.update (passed.filter fun (_, value) => !value.isUndefined)

/-- Keeps a reference, with its parts expanded. -/
def preserveReference (keep : Keeper) (ctx : Context) (template parameters : Value) : Run Value := do
  let template ← ctx.substituteValue template
  if parameters.isUndefined then return .map [(.text "template", template)]
  else
    let parameters ← keep ctx parameters
    return .map [(.text "template", template), (.text "parameters", parameters)]

/-- Leaves out a reference that names no template. -/
def skipReference (template : Value) : Run Value := do
  Run.report .debug .expansion "template_reference_skipped" [("template", .text template.toText)]
  return .list []

/-- The context in which the body of a template is expanded. -/
def templateContext (ctx : Context) (located : Template.Located) (document : Value) (given : Entries) :
    Context :=
  ctx.forTemplate (templateParameters (declaredParameters document) given) located.path
    located.repository

/-- A template that may be expanded at a point, with its document. -/
structure Admitted (engine : Engine) (ctx : Context) where
  located : Template.Located
  document : Value
  checked : Template.check engine ctx located = .ok ()

/-- Finds the template with a name, and reads it if it may be expanded at this point. -/
def fetch (engine : Engine) (ctx : Context) (name : String) : Run (Admitted engine ctx) := do
  let located ← Template.locate engine ctx name
  Run.pass (.found ctx located.reference located.path)
  match h : Template.check engine ctx located with
  | .error e => throw e
  | .ok () => return ⟨located, ← Template.document located, h⟩

namespace Admitted

variable {engine : Engine} {ctx : Context}

/-- The context of the template when it is passed some parameters. -/
def context (t : Admitted engine ctx) (given : Entries) : Context :=
  templateContext ctx t.located t.document given

theorem context_templates (t : Admitted engine ctx) (given : Entries) :
    (t.context given).templates = ctx.templates ++ [t.located.path] := rfl

theorem levelsLeft_lt (t : Admitted engine ctx) (given : Entries) :
    Template.levelsLeft engine (t.context given) < Template.levelsLeft engine ctx :=
  Template.levelsLeft_lt (Template.check_eq_ok t.checked).2 (by
    simp [Context.depth, context_templates])

end Admitted

/-! Four measures bound the rules below: whether templates are resolved, how many levels are left, the
size of what is expanded, and the rank of the rule. Each step lowers the first of them that it changes. -/

section Measures

variable {a b c d a' b' c' d' : Nat}

theorem earlier_stage (h : a < a') :
    Prod.Lex (· < ·) (Prod.Lex (· < ·) (Prod.Lex (· < ·) (· < ·))) (a, b, c, d) (a', b', c', d') :=
  .left _ _ h

theorem earlier_left (h : b < b') :
    Prod.Lex (· < ·) (Prod.Lex (· < ·) (Prod.Lex (· < ·) (· < ·))) (a, b, c, d) (a, b', c', d') :=
  .right _ (.left _ _ h)

theorem earlier_size (h : c < c') :
    Prod.Lex (· < ·) (Prod.Lex (· < ·) (Prod.Lex (· < ·) (· < ·))) (a, b, c, d) (a, b, c', d') :=
  .right _ (.right _ (.left _ _ h))

theorem earlier_rank (h : d < d') :
    Prod.Lex (· < ·) (Prod.Lex (· < ·) (Prod.Lex (· < ·) (· < ·))) (a, b, c, d) (a, b, c, d') :=
  .right _ (.right _ (.right _ h))

theorem earlier_preserved (mode : Mode) (h : c < c') :
    Prod.Lex (· < ·) (Prod.Lex (· < ·) (Prod.Lex (· < ·) (· < ·)))
      (Mode.preserving.stage, b, c, d) (mode.stage, b, c', d') := by
  cases mode with
  | resolving => exact earlier_stage Nat.zero_lt_one
  | preserving => exact earlier_size h

end Measures

mutual

/-- The value of any part of a document. A text that comes to nothing is undefined. -/
def expandValue (engine : Engine) (keep : Keeper) (mode : Mode) (ctx : Context) (node : Value) :
    Run Value :=
  match node with
  | .list items | .tuple items | .aliased items _ => do
    return .list (← expandItems engine keep mode ctx false items)
  | .reference template parameters => referenceItems engine keep mode ctx template parameters
  | .map entries | .pairs entries =>
    match mode, node.reference? with
    | .preserving, some (template, parameters) => preserveReference keep ctx template parameters
    | mode, _ => do return .map (← expandEntries engine keep mode ctx false [] entries)
  | node => expandScalar engine keep mode ctx node
termination_by (mode.stage, Template.levelsLeft engine ctx, sizeOf node, 1)
decreasing_by
  all_goals first
    | exact earlier_rank (by decide)
    | exact earlier_size (sizeOf_pos _)
    | exact earlier_size (by
        simp only [Value.list.sizeOf_spec, Value.tuple.sizeOf_spec, Value.aliased.sizeOf_spec,
          Value.map.sizeOf_spec, Value.pairs.sizeOf_spec]
        omega)

/-- The items that the items of a sequence become. The flag tells whether a branch of the current run has
been taken already; an empty branch adds nothing. Lists are put in the place of the item that they come
from. -/
def expandItems (engine : Engine) (keep : Keeper) (mode : Mode) (ctx : Context) (taken : Bool)
    (items : List Value) : Run (List Value) :=
  match items with
  | [] => return []
  | item :: rest =>
    match item.reference? with
    | some (template, parameters) => do
      let here ← referenceItems engine keep mode ctx template parameters
      return (here.list?.getD []) ++ (← expandItems engine keep mode ctx false rest)
    | none =>
      match h : directiveItem? item with
      | some (.each name collection, body) => do
        have := sizeOf_body h
        let elements ← loopElements ctx collection
        let here ← elements.mapM fun element => do
          Run.pass (.entered (iteration ctx name element))
          branchItems engine keep mode (iteration ctx name element) body
        return here.flatten ++ (← expandItems engine keep mode ctx false rest)
      | some (.malformedEach, _) => do
        reportMalformedLoop
        expandItems engine keep mode ctx false rest
      | some (.insert, _) | none => do
        match ← expandValue engine keep mode ctx item with
        | .undefined => expandItems engine keep mode ctx false rest
        | .list parts | .aliased parts _ =>
          let here ← splice engine keep mode ctx parts
          return here ++ (← expandItems engine keep mode ctx false rest)
        | v => return v :: (← expandItems engine keep mode ctx false rest)
      | some (d, body) => do
        have := sizeOf_body h
        let runsOn := decide (d ≠ .otherwise)
        if taken then expandItems engine keep mode ctx runsOn rest
        else if ← holds ctx d then
          let here ← if body.isNull then pure [] else branchItems engine keep mode ctx body
          return here ++ (← expandItems engine keep mode ctx runsOn rest)
        else expandItems engine keep mode ctx false rest
termination_by (mode.stage, Template.levelsLeft engine ctx, sizeOf items, 0)
decreasing_by
  all_goals exact earlier_size (by simp only [List.cons.sizeOf_spec]; omega)

/-- The items that the body of a loop or a branch gives to a sequence. -/
def branchItems (engine : Engine) (keep : Keeper) (mode : Mode) (ctx : Context) (body : Value) :
    Run (List Value) :=
  match body with
  | .list items | .tuple items | .aliased items _ => expandItems engine keep mode ctx false items
  | body =>
    match body.reference? with
    | some (template, parameters) => do
      return ((← referenceItems engine keep mode ctx template parameters).list?).getD []
    | none => do
      match ← expandValue engine keep mode ctx body with
      | .undefined => return []
      | v => return [v]
termination_by (mode.stage, Template.levelsLeft engine ctx, sizeOf body, 2)
decreasing_by
  all_goals first
    | exact earlier_rank (by decide)
    | exact earlier_size (sizeOf_pos _)
    | exact earlier_size (by
        simp only [Value.list.sizeOf_spec, Value.tuple.sizeOf_spec, Value.aliased.sizeOf_spec]
        omega)

/-- The entries that the pairs of a mapping become, added to those before. The flag tells
whether a branch of the current run has been taken already. -/
def expandEntries (engine : Engine) (keep : Keeper) (mode : Mode) (ctx : Context) (taken : Bool)
    (before : Entries) (pairs : Entries) : Run Entries :=
  match pairs with
  | [] => return before
  | (key, value) :: rest =>
    match Directive.ofKey? key with
    | some (.each name collection) => do
      let elements ← loopElements ctx collection
      let merged ← elements.foldlM (fun merged element => do
        Run.pass (.entered (iteration ctx name element))
        let branch ← branchEntries engine keep mode (iteration ctx name element) value
        mergeIteration (iteration ctx name element) name merged branch) []
      expandEntries engine keep mode ctx false (before.update merged) rest
    | some .malformedEach => do
      reportMalformedLoop
      expandEntries engine keep mode ctx false before rest
    | some .insert => do
      let inserted ← expandValue engine keep .preserving ctx value
      expandEntries engine keep mode ctx false (before.update ((inserted.entries?).getD [])) rest
    | some d => do
      let runsOn := decide (d ≠ .otherwise)
      if taken then expandEntries engine keep mode ctx runsOn before rest
      else if ← holds ctx d then
        let here ← if value.isNull then pure [] else branchEntries engine keep mode ctx value
        expandEntries engine keep mode ctx runsOn (before.update here) rest
      else expandEntries engine keep mode ctx false before rest
    | none => do
      match ← expandValue engine keep mode ctx value with
      | .undefined => expandEntries engine keep mode ctx false before rest
      | v =>
        let key ← ctx.substituteValue key
        expandEntries engine keep mode ctx false (before.insert key v) rest
termination_by (mode.stage, Template.levelsLeft engine ctx, sizeOf pairs, 0)
decreasing_by
  all_goals first
    | exact earlier_size (by simp only [List.cons.sizeOf_spec, Prod.mk.sizeOf_spec]; omega)
    | exact earlier_preserved mode (by simp only [List.cons.sizeOf_spec, Prod.mk.sizeOf_spec]; omega)

/-- The entries that the body of a loop or a branch gives to a mapping. -/
def branchEntries (engine : Engine) (keep : Keeper) (mode : Mode) (ctx : Context) (body : Value) :
    Run Entries :=
  match body with
  | .list items | .tuple items | .aliased items _ => do
    let items ← expandItems engine keep mode ctx false items
    return items.foldl (fun merged item => merged.update ((item.entries?).getD [])) []
  | .map entries | .pairs entries => expandEntries engine keep mode ctx false [] entries
  | body => do
    match ← expandScalar engine keep mode ctx body with
    | .undefined => return []
    | v => return [(.text "value", v)]
termination_by (mode.stage, Template.levelsLeft engine ctx, sizeOf body, 2)
decreasing_by
  all_goals first
    | exact earlier_rank (by decide)
    | exact earlier_size (sizeOf_pos _)
    | exact earlier_size (by
        simp only [Value.list.sizeOf_spec, Value.tuple.sizeOf_spec, Value.aliased.sizeOf_spec,
          Value.map.sizeOf_spec, Value.pairs.sizeOf_spec]
        omega)

/-- The value of a scalar: that of the expression if it is a text of just one, with the references in it
resolved or preserved, or else its text with the expressions in it replaced. -/
def expandScalar (engine : Engine) (keep : Keeper) (mode : Mode) (ctx : Context) (v : Value) :
    Run Value :=
  match v with
  | .text s => do
    let trimmed := Text.strip s
    if !isWholeExpression trimmed then return .text (← ctx.substitute s)
    else
      let result ← ctx.evaluateText (expressionBody trimmed)
      match result.reference?, mode with
      | some (template, parameters), .preserving => preserveReference keep ctx template parameters
      | some (template, parameters), .resolving => do
        let items ← referenceItems engine keep .resolving ctx template parameters
        match items.list? with
        | some [item] => return item
        | _ => return items
      | none, .preserving => return result
      | none, .resolving =>
        match result.list? with
        | none => return result
        | some items =>
          if items.any (·.reference?.isSome) then
            return .list (← splice engine keep .resolving ctx items)
          else return result
  | v => return v
termination_by (mode.stage, Template.levelsLeft engine ctx, 0, 4)
decreasing_by all_goals exact earlier_rank (by decide)

/-- The items of a list, with those that are references replaced by what these stand for. -/
def splice (engine : Engine) (keep : Keeper) (mode : Mode) (ctx : Context) (items : List Value) :
    Run (List Value) := do
  let parts ← items.mapM fun item =>
    match item.reference? with
    | none => return [item]
    | some (template, parameters) => do
      return ((← referenceItems engine keep mode ctx template parameters).list?).getD []
  return parts.flatten
termination_by (mode.stage, Template.levelsLeft engine ctx, 0, 3)
decreasing_by all_goals exact earlier_rank (by decide)

/-- The list of items that a reference stands for. -/
def referenceItems (engine : Engine) (keep : Keeper) (mode : Mode) (ctx : Context)
    (template parameters : Value) : Run Value :=
  match mode with
  | .preserving => do return .list [← preserveReference keep ctx template parameters]
  | .resolving => do
    match ← ctx.substituteValue template with
    | .text s =>
      if Text.isBlankText s then skipReference template
      else
        let t ← fetch engine ctx (Text.strip s)
        let given ←
          if parameters.isUndefined then pure []
          else passedParameters <$> expandValue engine keep .preserving ctx parameters
        have := t.levelsLeft_lt given
        Run.pass (.entered (t.context given))
        Run.report .debug .expansion "template_expanding"
          [("template", .text t.located.reference), ("path", .text t.located.path),
            ("depth", .int (t.context given).depth)]
        let expanded ← expandValue engine keep .resolving (t.context given) (withoutParameters t.document)
        return Template.contribution expanded
    | _ => skipReference template
termination_by (mode.stage, Template.levelsLeft engine ctx, 0, 2)
decreasing_by
  all_goals first
    | exact earlier_left ‹_›
    | exact earlier_stage Nat.zero_lt_one

end

/-- Expands the parameters of references that are kept, in which so many others may be nested. -/
def keepWithin (engine : Engine) : Nat → Keeper
  | 0 => fun _ _ => throw .endless
  | n + 1 => fun ctx parameters => expandValue engine (keepWithin engine n) .preserving ctx parameters

/-- Expands a part of a document, with its templates. -/
def expand (engine : Engine) (ctx : Context) (node : Value) : Run Value :=
  expandValue engine (keepWithin engine engine.nesting) .resolving ctx node

/-- Expands a part of a document and keeps its references to templates. -/
def expandPreserving (engine : Engine) (ctx : Context) (node : Value) : Run Value :=
  expandValue engine (keepWithin engine engine.nesting) .preserving ctx node

end PipelineTemplate.Expansion
