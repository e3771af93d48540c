import PipelineTemplate.Proofs.Expression.Path
import PipelineTemplate.Proofs.Value.Keyed

/-!
# Paths and their expressions

The value at the end of a path is found in two ways: by the expression that the text of the path is, or
name by name. Main statement: where the keys of all mappings are texts and nothing hides a root, both ways
lead to the same value, and to undefined alike.
-/

namespace PipelineTemplate

theorem Value.member_of_isMissing {v : Value} (h : v.isMissing = true) (key : Value) : v.member key = .undefined := by
  unfold member
  split
  · rfl
  · cases v with
    | null | undefined => rfl
    | _ => cases h

namespace Context

variable {ctx : Context}

/-- The keys of all mappings are texts, and the aliases of all lists are not made of digits. -/
def TextKeyed (ctx : Context) : Prop := ∀ name v, ctx.root? name = some v → v.TextKeyed

def rootNames : List String := ["parameters", "variables", "resources", "locals"]

/-- No parameter and no variable has the name of a root. -/
def RootsFree (ctx : Context) : Prop := ∀ name ∈ rootNames,
  ctx.parameters.get? (.text name) = none ∧ ctx.variableValues.get? (.text name) = none

theorem mem_rootNames {name : String} {v : Value} (h : ctx.root? name = some v) : name ∈ rootNames := by
  unfold root? at h
  split at h
  · simp [rootNames]
  · simp [rootNames]
  · simp [rootNames]
  · simp [rootNames]
  · cases h

/-- The first name of a path has the same value in both ways, whether parameters or roots come first. -/
theorem resolveName_eq (hroots : ctx.RootsFree) {name : String} (hname : constant? name = none) :
    ctx.resolveName name = ((ctx.locals.get? (.text name)).or <| (ctx.root? name).or <|
      (ctx.parameters.get? (.text name)).or (ctx.variableValues.get? (.text name))).getD .undefined := by
  unfold resolveName
  rw [hname, Option.none_or]
  cases hroot : ctx.root? name with
  | none => simp
  | some v =>
    obtain ⟨hparameter, hvariable⟩ := hroots name (mem_rootNames hroot)
    simp [hparameter, hvariable]

/-- A name that is no constant stands for a root or for a value in one, if it stands for anything. -/
theorem exists_root {name : String} (hname : constant? name = none) : ctx.resolveName name = .undefined ∨
    ∃ root v, ctx.root? root = some v ∧ (v = ctx.resolveName name ∨ v.Offers (ctx.resolveName name)) := by
  unfold resolveName
  rw [hname, Option.none_or]
  cases hlocal : ctx.locals.get? (.text name) with
  | some v => exact .inr ⟨"locals", _, rfl, .inr (.of_get? hlocal)⟩
  | none =>
    cases hparameter : ctx.parameters.get? (.text name) with
    | some v => exact .inr ⟨"parameters", _, rfl, .inr (.of_get? hparameter)⟩
    | none =>
      cases hvariable : ctx.variableValues.get? (.text name) with
      | some v => exact .inr ⟨"variables", _, rfl, .inr (.of_get? hvariable)⟩
      | none =>
        cases hroot : ctx.root? name with
        | some v => exact .inr ⟨name, v, hroot, .inl rfl⟩
        | none => exact .inl rfl

theorem TextKeyed.resolveName (h : ctx.TextKeyed) {name : String} (hname : constant? name = none) :
    (ctx.resolveName name).TextKeyed := by
  rcases exists_root hname with hundefined | ⟨root, v, hroot, rfl | hoffers⟩
  · rw [hundefined]
    exact .undefined
  · exact h root _ hroot
  · exact (h root v hroot).of_offers hoffers

/-! ## Steps -/

section Steps

variable {e : Expr} {v : Value}

/-- A step of a path leads from a value to the member of its name. -/
theorem evaluate_access (he : e.evaluate ctx = pure v) (hv : v.TextKeyed) (step : PathStep) :
    (step.access e).evaluate ctx = pure (v.member (.text step.name)) := by
  by_cases hmissing : v.isMissing = true
  · have hnone : v.member (.text step.name) = .undefined := Value.member_of_isMissing hmissing _
    cases step <;> simp [PathStep.access, Expr.evaluate, he, hmissing, hnone]
  · cases step with
    | member name h => simp [PathStep.access, Expr.evaluate, he, hmissing, PathStep.name]
    | position n =>
      have hposition := hv.member_position n
      simp [PathStep.access, Expr.evaluate, he, hmissing, hposition, PathStep.name]
    | quoted q key h => simp [PathStep.access, Expr.evaluate, he, hmissing, PathStep.name]

theorem evaluate_steps (he : e.evaluate ctx = pure v) (hv : v.TextKeyed) (steps : List PathStep) :
    (steps.foldl PathStep.access e).evaluate ctx =
      pure ((steps.map PathStep.name).foldl (fun v segment => v.member (.text segment)) v) := by
  induction steps generalizing e v with
  | nil => exact he
  | cons step steps ih => exact ih (evaluate_access he hv step) (hv.member _)

end Steps

theorem evaluate_path (hkeys : ctx.TextKeyed) (hroots : ctx.RootsFree) (p : MemberPath)
    (hfirst : constant? p.first = none) : p.expr.evaluate ctx = pure (ctx.resolvePath p.text) := by
  have hname : (Expr.name p.first).evaluate ctx = pure (ctx.resolveName p.first) := by simp [Expr.evaluate]
  have hsteps := evaluate_steps hname (hkeys.resolveName hfirst) p.steps
  rw [MemberPath.expr, hsteps, resolveName_eq hroots hfirst, resolvePath, p.pathSegments_text]

/-- The text of a path has the value that is found name by name along the path, undefined included. -/
theorem evaluateText_path {engine : Engine} (hkeys : ctx.TextKeyed) (hroots : ctx.RootsFree) (p : MemberPath)
    (hfirst : constant? p.first = none) {session : Session} (hs : session.Sound engine) :
    ∃ t, (ctx.evaluateText p.text).start session = (.ok (ctx.resolvePath p.text), t) := by
  have hsolid : Text.Solid p.text.toList := by
    rw [MemberPath.text, String.toList_ofList]
    exact p.solid_chars
  obtain ⟨t, -, hvalue⟩ := ctx.start_evaluateText hsolid p.parse_text hs
  rw [evaluate_path hkeys hroots p hfirst] at hvalue
  exact ⟨t, hvalue⟩

/-- A position after an alias, in resources that have a repository under it. -/
theorem evaluateText_path_alias :
    let ctx : Context :=
      { parameters := [(.text "pool", .list [.text "linux"])]
        resources := { repositories :=
          [⟨[(.text "alias", .text "tools"), (.text "refs", .list [.text "main"])], []⟩] }
        directory := "/" }
    let p : MemberPath :=
      ⟨"resources", by decide, [.member "repositories" (by decide), .quoted .marks "tools" (by decide),
        .member "refs" (by decide), .position 0]⟩
    p.text = "resources.repositories[\"tools\"].refs[0]" ∧ ctx.TextKeyed ∧ ctx.RootsFree ∧
      constant? p.first = none ∧ Session.Sound {} {} ∧
      ∃ t, (ctx.evaluateText p.text).start {} = (.ok (.text "main"), t) := by
  intro ctx p
  have hlist (s : String) : (Value.list [.text s]).TextKeyed := .list (List.forall_mem_singleton.2 (.text s))
  have hnone : (Value.map []).TextKeyed := .map (List.forall_mem_nil _) (List.forall_mem_nil _)
  have hkeys : ctx.TextKeyed := by
    intro name v hv
    unfold root? at hv
    split at hv <;> cases hv
    · exact .map (List.forall_mem_singleton.2 rfl) (List.forall_mem_singleton.2 (hlist "linux"))
    · exact hnone
    · apply Resources.textKeyed_toValue hnone
      intro repository hr
      obtain rfl := List.mem_singleton.1 hr
      exact .map (by simp [Value.isText]) (by simpa using ⟨.text "tools", hlist "main"⟩)
    · exact hnone
  have hroots : ctx.RootsFree := by
    intro name hname
    simp only [rootNames, List.mem_cons, List.not_mem_nil, or_false] at hname
    rcases hname with rfl | rfl | rfl | rfl <;> exact ⟨by simp [ctx, Entries.get?, Value.equal], rfl⟩
  have hs : Session.Sound {} {} := Session.sound_fresh [] {}
  have hfirst : constant? p.first = none := by decide
  have hvalue : ctx.resolvePath p.text = .text "main" := by cbv
  have hpath := evaluateText_path hkeys hroots p hfirst hs
  rw [hvalue] at hpath
  exact ⟨by decide, hkeys, hroots, hfirst, hs, hpath⟩

end Context

end PipelineTemplate
