import PipelineTemplate.Proofs.Expression.Evaluation
import PipelineTemplate.Proofs.Run.Start

/-!
# Detached runs

A detached run does not depend on the world: in any other world it gives the same and leaves the same
session, except for the world. It looks at no path, and does not fail because of a template or of the
repository that one is in. Evaluations are detached.
-/

namespace PipelineTemplate

/-- The failures of looking for templates, of reading them and of expanding them. -/
def Failure.isOfTemplates : Failure → Bool
  | .malformedDocument .. | .unknownRepository .. | .repositoryWithoutLocation .. | .unreadableTemplate ..
  | .templateNotFound .. | .recursiveTemplate .. | .templatesTooDeep .. => true
  | _ => false

namespace Run

structure Detached {α : Type} (r : Run α) : Prop where
  anywhere : ∀ s w, r.start { s with world := w } = ((r.start s).1, { (r.start s).2 with world := w })
  visited : ∀ s, (r.start s).2.visited = s.visited
  failure : ∀ s f, (r.start s).1 = .error f → f.isOfTemplates = false

variable {α β : Type}

/-- The world stays as it is. -/
theorem Detached.world {r : Run α} (h : r.Detached) (s : Session) : (r.start s).2.world = s.world :=
  congrArg (fun outcome => outcome.2.world) (h.anywhere s s.world)

theorem detached_pure (a : α) : Detached (pure a) := ⟨fun _ _ => rfl, fun _ => rfl, fun _ _ h => nomatch h⟩

theorem detached_throw {f : Failure} (h : f.isOfTemplates = false) : Detached (throw f : Run α) := by
  refine ⟨fun _ _ => rfl, fun _ => rfl, fun s g hg => ?_⟩
  cases hg
  exact h

theorem detached_bind {r : Run α} {next : α → Run β} (hr : r.Detached) (hn : ∀ a, (next a).Detached) :
    (r >>= next).Detached := by
  refine ⟨fun s w => ?_, fun s => ?_, fun s g hg => ?_⟩
  · have hw := hr.anywhere s w
    rcases start_bind_cases r next s with ⟨f, t, hs, hb⟩ | ⟨a, t, hs, hb⟩
    · rw [hs] at hw
      rw [hb, start_bind_error hw]
    · rw [hs] at hw
      rw [hb, start_bind_ok hw, (hn a).anywhere t w]
  · have hv := hr.visited s
    rcases start_bind_cases r next s with ⟨f, t, hs, hb⟩ | ⟨a, t, hs, hb⟩
    · rw [hs] at hv
      rw [hb, ← hv]
    · rw [hs] at hv
      rw [hb, (hn a).visited t, ← hv]
  · rcases start_bind_cases r next s with ⟨f, t, hs, hb⟩ | ⟨a, t, hs, hb⟩
    · rw [hb] at hg
      cases hg
      exact hr.failure s g (by rw [hs])
    · rw [hb] at hg
      exact (hn a).failure t g hg

/-- A run that takes from the session what is not the world goes on with a detached run. -/
theorem detached_get {next : Session → Run α} (h : ∀ s, (next s).Detached)
    (hw : ∀ s w, next { s with world := w } = next s) : (get >>= next : Run α).Detached := by
  have hstart (s : Session) : (get >>= next : Run α).start s = (next s).start s := start_bind_ok rfl
  refine ⟨fun s w => ?_, fun s => ?_, fun s f hf => ?_⟩
  · rw [hstart, hstart, hw]
    exact (h s).anywhere s w
  · rw [hstart]
    exact (h s).visited s
  · rw [hstart] at hf
    exact (h s).failure s f hf

theorem detached_modify {f : Session → Session} (hw : ∀ s w, f { s with world := w } = { f s with world := w })
    (hv : ∀ s, (f s).visited = s.visited) : Detached (modify f : Run PUnit) :=
  ⟨fun s w => congrArg (Prod.mk _) (hw s w), hv, fun _ _ h => nomatch h⟩

theorem detached_report (level : Level) (speaker : Speaker) (event : String)
    (fields : List (String × Value)) : Detached (report level speaker event fields) :=
  detached_modify (fun _ _ => rfl) fun _ => rfl

theorem detached_pass (point : Waypoint) : Detached (pass point) :=
  detached_modify (fun _ _ => rfl) fun _ => rfl

/-! ## Evaluations -/

theorem detached_remembered (text : String) : Detached (Expr.remembered text) := by
  refine detached_get (fun s => ?_) fun _ _ => rfl
  split
  · exact detached_pure _
  · refine detached_bind ?_ fun _ =>
      detached_bind (detached_modify (fun _ _ => rfl) fun _ => rfl) fun _ => detached_pure _
    unfold Expr.reading
    split
    · exact detached_pure _
    · exact detached_bind (detached_report ..) fun _ => detached_pure _

theorem detached_apply (op : BinaryOp) (a b : Value) : Detached (ExceptT.mk (pure (op.apply a b))) := by
  refine ⟨fun _ _ => rfl, fun _ => rfl, fun s f hf => ?_⟩
  have hf : op.apply a b = .error f := hf
  unfold BinaryOp.apply at hf
  split at hf
  · cases hf
  · split at hf
    · cases hf
    · split at hf <;> cases hf
      rfl

theorem detached_call (f : Builtin) (arguments : List Value) : Detached (f.call arguments) := by
  unfold Builtin.call
  split
  · split
    · exact detached_pure _
    · split
      · exact detached_pure _
      · exact detached_throw rfl
  · refine detached_get (fun s => ?_) fun _ _ => rfl
    split
    · exact detached_bind (detached_modify (fun _ _ => rfl) fun _ => rfl) fun _ => detached_pure _
    · exact detached_throw rfl
  · exact detached_pure _

/-- Evaluations are composed of detached runs. -/
theorem detached_evaluation : EvaluationRules @Detached where
  pure := detached_pure
  bind := detached_bind
  report := detached_report
  remembered := detached_remembered
  apply := detached_apply
  call := detached_call
  notSerializable := detached_throw rfl

end Run

end PipelineTemplate
