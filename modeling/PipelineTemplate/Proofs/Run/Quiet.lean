import PipelineTemplate.Proofs.Run.Start
import PipelineTemplate.Proofs.Template.Search

/-!
# Quiet runs

A quiet run leaves the world and the way of the expansions as they are, and does not fail because
expansions lead into each other. Evaluations and the search for templates are quiet.
-/

namespace PipelineTemplate

/-- The failures of expansions that lead into each other too often or for ever. -/
def Failure.isDeep : Failure → Bool
  | .endless | .recursiveTemplate .. | .templatesTooDeep .. => true
  | _ => false

namespace Run

structure Quiet {α : Type} (r : Run α) : Prop where
  world : ∀ s, (r.start s).2.world = s.world
  trail : ∀ s, (r.start s).2.trail = s.trail
  shallow : ∀ s f, (r.start s).1 = .error f → f.isDeep = false

variable {α β : Type}

theorem quiet_pure (a : α) : Quiet (pure a) := ⟨fun _ => rfl, fun _ => rfl, fun _ _ h => nomatch h⟩

theorem quiet_bind {r : Run α} {next : α → Run β} (hr : Quiet r) (hn : ∀ a, Quiet (next a)) :
    Quiet (r >>= next) := by
  refine ⟨fun s => ?_, fun s => ?_, fun s f hf => ?_⟩
  · rcases start_bind_cases r next s with ⟨f, t, hs, hb⟩ | ⟨a, t, hs, hb⟩
    · rw [hb, ← hr.world s, hs]
    · rw [hb, (hn a).world t, ← hr.world s, hs]
  · rcases start_bind_cases r next s with ⟨f, t, hs, hb⟩ | ⟨a, t, hs, hb⟩
    · rw [hb, ← hr.trail s, hs]
    · rw [hb, (hn a).trail t, ← hr.trail s, hs]
  · rcases start_bind_cases r next s with ⟨g, t, hs, hb⟩ | ⟨a, t, hs, hb⟩
    · rw [hb] at hf
      cases hf
      exact hr.shallow s f (by rw [hs])
    · rw [hb] at hf
      exact (hn a).shallow t f hf

theorem quiet_throw {f : Failure} (h : f.isDeep = false) : Quiet (throw f : Run α) := by
  refine ⟨fun _ => rfl, fun _ => rfl, fun s g hg => ?_⟩
  cases hg
  exact h

theorem quiet_get : Quiet (get : Run Session) :=
  ⟨fun _ => rfl, fun _ => rfl, fun _ _ h => nomatch h⟩

theorem quiet_modify {f : Session → Session} (hw : ∀ s, (f s).world = s.world)
    (ht : ∀ s, (f s).trail = s.trail) : Quiet (modify f : Run PUnit) :=
  ⟨hw, ht, fun _ _ h => nomatch h⟩

theorem quiet_report (level : Level) (speaker : Speaker) (event : String)
    (fields : List (String × Value)) : Quiet (report level speaker event fields) :=
  quiet_modify (fun _ => rfl) fun _ => rfl

theorem quiet_look (path : String) (see : World → String → α) : Quiet (look path see) :=
  ⟨fun _ => rfl, fun _ => rfl, fun _ _ h => nomatch h⟩

/-! ## Evaluations -/

theorem quiet_remembered (text : String) : Quiet (Expr.remembered text) := by
  refine quiet_bind quiet_get fun s => ?_
  split
  · exact quiet_pure _
  · refine quiet_bind ?_ fun _ => quiet_bind (quiet_modify (fun _ => rfl) fun _ => rfl) fun _ =>
      quiet_pure _
    unfold Expr.reading
    split
    · exact quiet_pure _
    · exact quiet_bind (quiet_report ..) fun _ => quiet_pure _

theorem quiet_apply (op : BinaryOp) (a b : Value) : Quiet (ExceptT.mk (pure (op.apply a b))) := by
  refine ⟨fun _ => rfl, fun _ => rfl, fun s f hf => ?_⟩
  have hf : op.apply a b = .error f := hf
  unfold BinaryOp.apply at hf
  split at hf
  · cases hf
  · split at hf
    · cases hf
    · split at hf <;> cases hf
      rfl

theorem quiet_call (f : Builtin) (arguments : List Value) : Quiet (f.call arguments) := by
  unfold Builtin.call
  split
  · split
    · exact quiet_pure _
    · split
      · exact quiet_pure _
      · exact quiet_throw rfl
  · refine quiet_bind quiet_get fun s => ?_
    split
    · exact quiet_bind (quiet_modify (fun _ => rfl) fun _ => rfl) fun _ => quiet_pure _
    · exact quiet_throw rfl
  · exact quiet_pure _

/-- Evaluations are composed of quiet runs. -/
theorem quiet_evaluation : EvaluationRules @Quiet where
  pure := quiet_pure
  bind := quiet_bind
  report := quiet_report
  remembered := quiet_remembered
  apply := quiet_apply
  call := quiet_call
  notSerializable := quiet_throw rfl

/-! ## The search for templates -/

theorem quiet_absolute (path : String) : Quiet (Template.absolute path) :=
  quiet_bind quiet_get fun _ => quiet_pure _

theorem quiet_locationOf (engine : Engine) (ctx : Context) (r : Repository) :
    Quiet (Template.locationOf engine ctx r) := by
  unfold Template.locationOf
  split
  · exact quiet_pure _
  · refine quiet_bind quiet_get fun s => ?_
    split
    · exact quiet_pure _
    · refine quiet_bind (quiet_evaluation.substitute ctx _) fun written => ?_
      simp only
      split
      · exact quiet_pure _
      · refine quiet_bind quiet_get fun s => quiet_bind (quiet_modify ?_ ?_) fun _ => quiet_pure _
        · intro s
          split <;> rfl
        · intro s
          split <;> rfl

/-- The search for templates is composed of quiet runs. -/
theorem quiet_search (engine : Engine) : SearchRules engine @Quiet where
  toEvaluationRules := quiet_evaluation
  absolute := quiet_absolute
  look := quiet_look
  location := quiet_locationOf engine
  unknown _ _ := quiet_throw rfl
  unlocated _ _ := quiet_throw rfl
  missing _ _ := quiet_throw rfl

end Run

/-- Reading a template fails deeply only if its document contains itself. -/
theorem Template.Located.read_deep {t : Located} {content : Except ReadError String} {f : Failure}
    (h : t.read content = .error f) (hf : f.isDeep = true) :
    f = .endless ∧ ∃ text, content = .ok text ∧ Yaml.read text = .error .endless := by
  unfold read at h
  split at h
  · cases h
    cases hf
  · rename_i text
    split at h
    · cases h
    · cases h
    · cases h
      cases hf
    · rename_i fault _ hr
      cases h
      cases fault with
      | endless => exact ⟨rfl, text, rfl, hr⟩
      | _ => cases hf

end PipelineTemplate
