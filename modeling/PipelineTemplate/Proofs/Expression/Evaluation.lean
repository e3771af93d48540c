import PipelineTemplate.Expansion

/-!
# Properties of evaluations

A property of runs that holds of the few runs from which evaluations are composed, and of what is
composed of runs that have it, holds of the evaluation of every expression, of the texts in which
expressions are replaced and of the conditions, collections and keys of loops.
-/

namespace PipelineTemplate

/-- The runs that have a property are composed of each other. -/
structure Composable (Q : (α : Type) → Run α → Prop) : Prop where
  pure : ∀ {α : Type} (a : α), Q α (pure a)
  bind : ∀ {α β : Type} {r : Run α} {next : α → Run β}, Q α r → (∀ a, Q β (next a)) → Q β (r >>= next)

/-- The runs that evaluations are composed of have a property. -/
structure EvaluationRules (Q : (α : Type) → Run α → Prop) : Prop extends Composable Q where
  report : ∀ level speaker event fields, Q Unit (Run.report level speaker event fields)
  remembered : ∀ text, Q (Option Expr) (Expr.remembered text)
  apply : ∀ (op : BinaryOp) a b, Q Value (ExceptT.mk (Pure.pure (op.apply a b)))
  call : ∀ (f : Builtin) arguments, Q Value (f.call arguments)
  notSerializable : Q (List Char) (throw .notSerializable)

namespace EvaluationRules

variable {Q : (α : Type) → Run α → Prop} (rules : EvaluationRules Q)

include rules

theorem invoke (f : Callable) (name : String) (arguments : List Value) :
    Q Value (f.invoke name arguments) := by
  have failed (reason : String) : Q Value (do
      Run.report .debug .evaluation "expression_callable_failed"
        [("function", .text name), ("error", .text reason)]
      return .undefined) := rules.bind (rules.report ..) fun _ => rules.pure _
  cases f with
  | arguments => exact rules.pure _
  | custom => exact rules.pure _
  | failing => exact failed "boom"
  | first =>
    match arguments with
    | [] => exact failed _
    | [v] => exact rules.pure _
    | _ :: _ :: _ => exact failed _

theorem callValue (name : String) (v : Value) (arguments : List Value) :
    Q Value (Expr.callValue name v arguments) := by
  unfold Expr.callValue
  split
  · exact rules.invoke ..
  · unfold Builtin.callNamed
    split
    · exact rules.call ..
    · exact rules.pure _

/-- The value that is missing settles what follows. -/
theorem unlessMissing (v : Value) {next : Run Value} (h : Q Value next) :
    Q Value (do
      if v.isMissing then return .undefined
      next) := by
  cases v.isMissing
  · exact h
  · exact rules.pure _

mutual

theorem evaluate (ctx : Context) (e : Expr) : Q Value (e.evaluate ctx) := by
  cases e with
  | literal v => exact rules.pure _
  | name s => exact rules.pure _
  | member target s => exact rules.bind (evaluate ctx target) fun v => rules.pure _
  | index target key =>
    refine rules.bind (evaluate ctx target) fun v => rules.unlessMissing v ?_
    exact rules.bind (evaluate ctx key) fun k => rules.pure _
  | unary op argument => exact rules.bind (evaluate ctx argument) fun v => rules.pure _
  | binary op left right =>
    refine rules.bind (evaluate ctx left) fun a => ?_
    exact rules.bind (evaluate ctx right) fun b => rules.apply op a b
  | logical op left right =>
    refine rules.bind (evaluate ctx left) fun a => ?_
    cases op.settles a
    · exact evaluate ctx right
    · exact rules.pure _
  | conditional test yes no =>
    refine rules.bind (evaluate ctx test) fun v => ?_
    cases v.isTrue
    · exact evaluate ctx no
    · exact evaluate ctx yes
  | array elements => exact rules.bind (evaluateAll ctx elements) fun vs => rules.pure _
  | object properties => exact rules.bind (evaluateProperties ctx properties) fun vs => rules.pure _
  | call callee arguments =>
    have values := evaluateAll ctx arguments
    -- A name, a member and an item are called by name; any other callee is evaluated.
    cases callee with
    | name s => exact rules.bind values fun vs => rules.callValue ..
    | member target s =>
      refine rules.bind values fun vs => rules.bind (evaluate ctx target) fun v => ?_
      exact rules.unlessMissing v (rules.callValue ..)
    | index target key =>
      refine rules.bind values fun vs => rules.bind (evaluate ctx target) fun v => ?_
      refine rules.unlessMissing v (rules.bind (evaluate ctx key) fun k => ?_)
      exact rules.unlessMissing k (rules.callValue ..)
    | _ =>
      refine rules.bind values fun vs => rules.bind (evaluate ctx _) fun v => ?_
      cases v with
      | callable f => exact rules.invoke ..
      | _ => exact rules.pure _

theorem evaluateAll (ctx : Context) (es : List Expr) : Q (List Value) (Expr.evaluateAll ctx es) := by
  cases es with
  | nil => exact rules.pure _
  | cons e es =>
    refine rules.bind (evaluate ctx e) fun v => ?_
    exact rules.bind (evaluateAll ctx es) fun vs => rules.pure _

theorem evaluateProperties (ctx : Context) (properties : List (Value × Expr)) :
    Q Entries (Expr.evaluateProperties ctx properties) := by
  match properties with
  | [] => exact rules.pure _
  | (key, e) :: rest =>
    refine rules.bind (evaluate ctx e) fun v => ?_
    exact rules.bind (evaluateProperties ctx rest) fun vs => rules.pure _

end

theorem evaluateText (ctx : Context) (text : String) : Q Value (ctx.evaluateText text) := by
  unfold Context.evaluateText
  by_cases h : Text.strip text = ""
  · simp only [h, if_true]
    exact rules.pure _
  · simp only [h, if_false]
    refine rules.bind (rules.remembered _) fun reading => ?_
    cases reading with
    | some e => exact rules.evaluate ctx e
    | none =>
      simp only
      split <;> exact rules.pure _

theorem piecesText (ctx : Context) (pieces : List Embedded.Piece) :
    Q (List Char) (ctx.piecesText pieces) := by
  induction pieces with
  | nil => exact rules.pure _
  | cons piece rest ih =>
    refine rules.bind ?_ fun s => rules.bind ih fun t => rules.pure _
    cases piece with
    | char c => exact rules.pure _
    | expression body =>
      refine rules.bind (rules.evaluateText ctx body) fun v => ?_
      split
      · exact rules.pure _
      · exact rules.notSerializable

theorem substitute (ctx : Context) (text : String) : Q String (ctx.substitute text) := by
  unfold Context.substitute
  cases Text.hasInfix Embedded.opening text.toList
  · exact rules.pure _
  · exact rules.bind (rules.piecesText ctx _) fun _ => rules.pure _

theorem substituteValue (ctx : Context) (v : Value) : Q Value (ctx.substituteValue v) := by
  cases v with
  | text s => exact rules.bind (rules.substitute ctx s) fun _ => rules.pure _
  | _ => exact rules.pure _

end EvaluationRules

namespace EvaluationRules

open Expansion

variable {Q : (α : Type) → Run α → Prop} (rules : EvaluationRules Q)

include rules

theorem loopElements (ctx : Context) (collection : String) :
    Q (List (Value × Nat)) (loopElements ctx collection) :=
  rules.bind (rules.evaluateText ctx collection) fun _ => rules.pure _

theorem holds (ctx : Context) (d : Directive) : Q Bool (holds ctx d) := by
  have test (kind condition : String) : Q Bool (do
      let result ← ctx.evaluateText condition
      Run.report .debug .expansion "condition_evaluated"
        [("kind", .text kind), ("condition", .text condition), ("result", .bool result.isTrue)]
      return result.isTrue) :=
    rules.bind (rules.evaluateText ctx condition) fun _ =>
      rules.bind (rules.report ..) fun _ => rules.pure _
  cases d with
  | ifTrue condition => exact test _ _
  | elseIf condition => exact test _ _
  | _ => exact rules.bind (rules.report ..) fun _ => rules.pure _

theorem iterationKey (ctx : Context) (name : String) : Q String (iterationKey ctx name) := by
  simp only [Expansion.iterationKey]
  split
  · exact rules.pure _
  · split
    · exact rules.pure _
    · exact rules.bind (rules.evaluateText ctx name) fun _ => rules.pure _

theorem mergeIteration (ctx : Context) (name : String) (merged branch : Entries) :
    Q Entries (mergeIteration ctx name merged branch) := by
  unfold Expansion.mergeIteration
  split
  · exact rules.pure _
  · exact rules.bind (rules.iterationKey ctx name) fun _ => rules.pure _

theorem skipReference (template : Value) : Q Value (skipReference template) :=
  rules.bind (rules.report ..) fun _ => rules.pure _

theorem reportMalformedLoop : Q Unit reportMalformedLoop := rules.report ..

end EvaluationRules

end PipelineTemplate
