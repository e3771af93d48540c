import PipelineTemplate.Proofs.Expansion.Composition
import PipelineTemplate.Proofs.Run.Detached

/-!
# Expansion that keeps references

An expansion that keeps references to templates is detached: whatever is nested in the node and in the
values of the context, it never falls back on the mode in which templates are resolved, so it neither looks
at a file nor fails because of a template.
-/

namespace PipelineTemplate.Expansion

variable {engine : Engine}

/-- The steps of an expansion that keeps references are detached if its keeper is. -/
theorem detached_rules {keeper : Keeper} (hk : ∀ ctx parameters, (keeper ctx parameters).Detached) :
    ExpansionRules engine @Run.Detached (fun _ r => (r keeper).Detached) fun mode _ => mode = .preserving where
  leaf := id
  bind := Run.detached_bind
  keep parameters _ := hk _ parameters
  enter _ := Run.detached_pass _
  iteration _ _ h := h
  preserved _ := rfl
  fetch _ _ h := by cases h

theorem detached_keepWithin (n : Nat) (ctx : Context) (parameters : Value) :
    (keepWithin engine n ctx parameters).Detached := by
  induction n generalizing ctx parameters with
  | zero => exact Run.detached_throw rfl
  | succ n ih => exact (detached_rules ih).expandValue Run.detached_evaluation rfl parameters

theorem detached_expandPreserving (ctx : Context) (node : Value) :
    (expandPreserving engine ctx node).Detached :=
  (detached_rules (detached_keepWithin engine.nesting)).expandValue Run.detached_evaluation rfl node

/-- In two worlds an expansion that keeps references gives the same and leaves the same session, the
counters included; it looks at no path, and no failure of it is about a template or a repository. -/
theorem expandPreserving_worldless (engine : Engine) (ctx : Context) (node : Value) (s : Session) (w : World) :
    (expandPreserving engine ctx node).start { s with world := w } =
        (((expandPreserving engine ctx node).start s).1,
          { ((expandPreserving engine ctx node).start s).2 with world := w }) ∧
      ((expandPreserving engine ctx node).start s).2.world = s.world ∧
      ((expandPreserving engine ctx node).start s).2.visited = s.visited ∧
      ∀ f, ((expandPreserving engine ctx node).start s).1 = .error f → f.isOfTemplates = false := by
  have detached : (expandPreserving engine ctx node).Detached := detached_expandPreserving ctx node
  exact ⟨detached.anywhere s w, detached.world s, detached.visited s, detached.failure s⟩

end PipelineTemplate.Expansion
