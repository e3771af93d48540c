import PipelineTemplate.Proofs.Expression.Evaluation

/-!
# Properties of the search for templates

A property of runs that evaluations have, and that looking at a path, resolving the location of a
repository and failing to find a template have, holds of the whole search for a template.
-/

namespace PipelineTemplate

/-- The runs that the search for templates is composed of have a property. -/
structure SearchRules (engine : Engine) (Q : (α : Type) → Run α → Prop) : Prop extends EvaluationRules Q where
  absolute : ∀ path, Q String (Template.absolute path)
  look : ∀ {α : Type} path (see : World → String → α), Q α (Run.look path see)
  location : ∀ ctx r, Q (Option String) (Template.locationOf engine ctx r)
  unknown : ∀ repository template, Q String (throw (.unknownRepository repository template))
  unlocated : ∀ repository template, Q String (throw (.repositoryWithoutLocation repository template))
  missing : ∀ template path, Q Template.Located (throw (.templateNotFound template path))

namespace SearchRules

open Template

variable {engine : Engine} {Q : (α : Type) → Run α → Prop} (rules : SearchRules engine Q)

include rules

theorem firstFile (paths : List String) : Q (Option String) (firstFile paths) := by
  induction paths with
  | nil => exact rules.pure _
  | cons path rest ih =>
    refine rules.bind (rules.absolute path) fun path => rules.bind (rules.look ..) fun found => ?_
    split
    · exact rules.pure _
    · exact ih

theorem findWithin (template : String) (directory repository : Option String) :
    Q (Option String) (findWithin template directory repository) := by
  simp only [Template.findWithin]
  split
  · exact rules.pure _
  · exact rules.firstFile _

theorem directoryOf (ctx : Context) (location : String) : Q String (directoryOf ctx location) := by
  refine rules.bind (rules.look ..) fun found => ?_
  split <;> exact rules.pure _

theorem repositoryRoot (ctx : Context) (r : RepositoryReference) (template : String) :
    Q String (repositoryRoot engine ctx r template) := by
  unfold Template.repositoryRoot
  split
  · exact rules.pure _
  · split
    · exact rules.unknown _ _
    · refine rules.bind (rules.location ctx _) fun location => ?_
      split
      · exact rules.unlocated _ _
      · refine rules.bind (rules.directoryOf ctx _) fun root => ?_
        exact rules.bind (rules.report ..) fun _ => rules.pure _

theorem foundOr (path : String) (found : Option String) : Q String (foundOr path found) := by
  cases found with
  | some path => exact rules.pure _
  | none => exact rules.absolute path

theorem place (ctx : Context) (template : String) : Q Located (place engine ctx template) := by
  unfold Template.place
  split
  · refine rules.bind (rules.findWithin ..) fun found => ?_
    exact rules.bind (rules.foundOr ..) fun _ => rules.pure _
  · refine rules.bind (rules.repositoryRoot ..) fun root => ?_
    refine rules.bind (rules.findWithin ..) fun found => ?_
    exact rules.bind (rules.foundOr ..) fun _ => rules.pure _

theorem locate (ctx : Context) (template : String) : Q Located (locate engine ctx template) := by
  refine rules.bind (rules.place ..) fun located => rules.bind (rules.look ..) fun found => ?_
  split
  · exact rules.bind (rules.report ..) fun _ => rules.pure _
  · exact rules.missing _ _

end SearchRules

end PipelineTemplate
