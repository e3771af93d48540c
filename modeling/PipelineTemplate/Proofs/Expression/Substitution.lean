import PipelineTemplate.Proofs.Expression.Wording

/-!
# Substitution

A text between whose expressions nothing opens another one. Its expressions are evaluated once each, in
the order in which they stand, and their texts are put between the parts of the text as they are.
-/

namespace PipelineTemplate

open Text (isBlank trim)

namespace Wording

open Embedded

/-- No part of the wording opens an expression, and each expression ends at the first closing braces. -/
structure Spanned (w : Wording) : Prop where
  lead : Text.hasInfix opening w.lead = false
  inside : ∀ span ∈ w.spans, Delimited span.1
  behind : ∀ span ∈ w.spans, Text.hasInfix opening span.2 = false

/-- The texts of the expressions. -/
def bodies (w : Wording) : List String := w.spans.map fun span => String.ofList (trim span.1)

/-- The wording with a text in the place of each expression. -/
def filled (w : Wording) (texts : List String) : String :=
  String.ofList (w.lead ++ (w.spans.zipWith (fun span text => text.toList ++ span.2) texts).flatten)

theorem head?_spansText (spans : List (List Char × List Char)) :
    (spansText spans).head? ≠ some '\x7b' := by
  cases spans <;> simp [spansText, opening]

theorem spansProper_of_plain {spans : List (List Char × List Char)}
    (hinside : ∀ span ∈ spans, Delimited span.1)
    (hbehind : ∀ span ∈ spans, Text.hasInfix opening span.2 = false) : SpansProper spans := by
  induction spans with
  | nil => trivial
  | cons span spans ih =>
    rw [List.forall_mem_cons] at hinside hbehind
    exact ⟨hinside.1, bare_of_plain hbehind.1 (head?_spansText spans), ih hinside.2 hbehind.2⟩

theorem Spanned.proper {w : Wording} (h : w.Spanned) : w.Proper where
  lead := bare_of_plain h.lead (head?_spansText w.spans)
  spans := spansProper_of_plain h.inside h.behind

end Wording

namespace Context

variable {ctx : Context}

/-- The text of an expression's value. -/
def bodyText (ctx : Context) (body : String) : Run String := do
  match (← ctx.evaluateText body).embeddedText? with
  | some text => return text
  | none => throw .notSerializable

theorem pieceText_expression (body : String) :
    ctx.pieceText (.expression body) = (do return (← ctx.bodyText body).toList) := by
  unfold pieceText bodyText
  rw [bind_assoc]
  apply bind_congr
  intro v
  cases v.embeddedText? with
  | none => rfl
  | some text => simp

theorem spansFilled_eq (spans : List (List Char × List Char)) : ctx.spansFilled spans = (do
    let texts ← (spans.map fun span => String.ofList (trim span.1)).mapM ctx.bodyText
    return (spans.zipWith (fun span text => text.toList ++ span.2) texts).flatten) := by
  induction spans with
  | nil => rfl
  | cons span spans ih =>
    unfold spansFilled
    rw [pieceText_expression, ih]
    simp

end Context
end PipelineTemplate
