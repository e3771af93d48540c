import Mathlib
import PipelineTemplate.Pipeline
import PipelineTemplate.Proofs.Expansion.Contract

/-!
# Expanded documents are materialized

The lists of an expanded document hold no references to templates, apart from those that may remain. This
is a contract on the parts of the documents that are used. As these insert no mappings, nothing stands where
references are kept.
-/

namespace PipelineTemplate.Expansion

namespace Passage

/-- In contexts that are entered, written parts become values whose lists hold resolved items. -/
def materialization (p : Passage) : Contract where
  reached := p.Enters
  stands
    | .resolving, node => p.Written node
    | .preserving, _ => False
  refers _ _ _ := False
  whole := p.Materialized
  item x := p.Resolved x ∧ p.Materialized x
  entry := p.Materialized

variable {p : Passage}

/-- What a run gives on the way has a property. -/
abbrev Gives {α : Type} (p : Passage) (r : Run α) (post : α → Prop) : Prop :=
  Run.Gives p.first p.last r post

variable (hi : ∀ d, p.Used d → d.WithoutInsert)

include hi

/-- If the documents that are used insert nothing, what remains in lists is what may remain. -/
theorem materialization_rules : ContractRules p .onward p.keep p.materialization where
  before := id
  evaluation := Run.advances_evaluation
  pass := Run.advances_pass
  fetch := advances_fetch
  given := advances_given _
  entered := id
  used h := ⟨_, h, .refl⟩
  child {mode} _ _ h hc := by
    cases mode with
    | resolving => exact Written.child h hc
    | preserving => exact h
  inserted {mode} _ _ _ h hp he hk := by
    cases mode with
    | resolving =>
      obtain ⟨document, used, hw⟩ := h
      exact hi document used _ _ hw hp _ he hk
    | preserving => exact h
  written h _ := h
  listed _ h _ _ _ _ := h
  whole_iff := by
    refine ⟨fun h => ⟨fun _ => h.child, fun items hl x hx => ?_⟩, fun h => ?_⟩
    · have hm := h.items
      rw [hl] at hm
      exact hm x hx
    · exact materialized_of (fun items hl x hx => (h.2 items hl x hx).1) h.1
  whole_of_entry := id
  entry_of_whole h _ := h
  entry_of_item h := h.2
  item_of_entry h hr := ⟨.inl hr, h⟩
  became {mode} _ _ _ entered stands shape hr attains h := by
    cases mode with
    | resolving =>
      obtain ⟨document, used, hw⟩ := stands
      obtain ⟨s, t, -, hs, -⟩ := attains
      exact ⟨.inr (.merged entered used hw hr shape hs), h⟩
    | preserving => exact stands.elim
  evaluated mode ctx text hw := by
    have evaluated : (ctx.evaluateText (expressionBody (Text.strip text))).Along .onward :=
      Run.advances_evaluation.evaluateText ctx _
    refine (Run.Ensures.of_along evaluated).attained.mono fun v hv entered stands => ?_
    obtain ⟨-, s, t, -, hs, -⟩ := hv
    cases mode with
    | resolving => exact ⟨materialized_inherited entered stands hw hs, by simp⟩
    | preserving => exact stands.elim
  kept ctx template parameters := by
    have rules := @advances_rules p.engine p.keep (advances_keepWithin _)
    have kept : (preserveReference p.keep ctx template parameters).Along .onward :=
      rules.preserveReference Run.quiet_evaluation trivial template parameters
    exact (Run.Ensures.of_along kept).mono fun _ _ _ h => h.elim
  contributed entered used became h := by
    obtain ⟨s, t, -, hs, -⟩ := became
    exact materialized_contribution entered used hs h

theorem gives_expandValue (ctx : Context) (node : Value) :
    p.Gives (expandValue p.engine p.keep .resolving ctx node) fun v => p.Enters ctx → p.Written node →
      p.Materialized v ∧ (node.reference? = none → p.Resolved v) := by
  refine .of_ensures (((materialization_rules hi).ensures_expandValue .resolving ctx node).mono ?_)
  intro v hv entered written
  refine ⟨(hv entered written).1, fun hr => ?_⟩
  by_cases hu : v = .undefined
  · subst hu
    exact .inl rfl
  · exact ((hv entered written).2 hr hu).1

end Passage

end PipelineTemplate.Expansion

namespace PipelineTemplate.Pipeline

open Expansion

/-- The expansion of the document in a text in its root context. -/
def expandSource (engine : Engine) (ctx : Context) (source : Value) (file : Value) : Run Value := do
  Run.pass (.entered ctx)
  Run.report .info .engine "expansion_started" [("file", file), ("base_dir", .text ctx.directory)]
  let result ← Expansion.expand engine ctx source
  Run.report .info .engine "expansion_finished" [("file", file)]
  return result

theorem start_expand {engine : Engine} {text : String} {options : Options} {source : Value}
    (hd : document text options = .ok source) (s : Session) :
    (expand engine text options).start s =
      (expandSource engine (rootContext s.world.workingDirectory source options) source
        (options.fileName.elim .null .text)).start s := by
  unfold expand expandWith
  rw [hd]
  rfl

end PipelineTemplate.Pipeline
