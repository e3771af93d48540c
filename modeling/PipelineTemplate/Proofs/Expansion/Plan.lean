import Mathlib.Tactic.Choose
import PipelineTemplate.Proofs.Expansion.Composition
import PipelineTemplate.Proofs.Run.Quiet

/-!
# Plans

What an expansion does depends on its keeper only at the sites where it leaves the parameters of a
reference to it. A plan is the tree of these questions: it is finite along every sequence of answers,
and a failure of the keeper is the failure of the run. Every expansion has a plan.
-/

namespace PipelineTemplate.Expansion

/-- What a run gives: its value or failure, and the session after it. -/
abbrev Outcome (α : Type) := Except Failure α × Session

/-- The parameters of a reference that is kept, with the place and the session that they are expanded
in. -/
structure Site where
  ctx : Context
  parameters : Value
  session : Session

/-- What a keeper makes of the parameters at a site. -/
def Keeper.at (keep : Keeper) (site : Site) : Outcome Value :=
  (keep site.ctx site.parameters).start site.session

inductive Plan (α : Type) where
  | done (outcome : Outcome α)
  | ask (site : Site) (next : Value → Session → Plan α)

namespace Plan

variable {α β : Type}

def run (keep : Keeper) : Plan α → Outcome α
  | .done outcome => outcome
  | .ask site next =>
    match keep.at site with
    | (.ok v, t) => (next v t).run keep
    | (.error f, t) => (.error f, t)

theorem run_ask_ok {keep : Keeper} {site : Site} {next : Value → Session → Plan α} {v : Value}
    {t : Session} (h : keep.at site = (.ok v, t)) : (ask site next).run keep = (next v t).run keep := by
  simp only [run, h]

theorem run_ask_error {keep : Keeper} {site : Site} {next : Value → Session → Plan α} {f : Failure}
    {t : Session} (h : keep.at site = (.error f, t)) : (ask site next).run keep = (.error f, t) := by
  simp only [run, h]

/-- Whether all ends of a plan have a property, whatever the answers are. -/
def Ends (P : Outcome α → Prop) : Plan α → Prop
  | .done outcome => P outcome
  | .ask _ next => ∀ v t, (next v t).Ends P

/-- A plan and then another one. -/
def bind (next : α → Session → Plan β) : Plan α → Plan β
  | .done (.ok a, t) => next a t
  | .done (.error f, t) => .done (.error f, t)
  | .ask site more => .ask site fun v t => (more v t).bind next

theorem run_bind_error {keep : Keeper} {next : α → Session → Plan β} {plan : Plan α} {f : Failure}
    {t : Session} (h : plan.run keep = (.error f, t)) : (plan.bind next).run keep = (.error f, t) := by
  induction plan with
  | done outcome =>
    obtain rfl : outcome = (.error f, t) := h
    rfl
  | ask site more ih =>
    rcases hk : keep.at site with ⟨g | v, u⟩
    · rw [run_ask_error hk] at h
      obtain ⟨rfl, rfl⟩ : g = f ∧ u = t := by simpa using h
      exact run_ask_error hk
    · rw [run_ask_ok hk] at h
      exact (run_ask_ok hk).trans (ih v u h)

theorem run_bind_ok {keep : Keeper} {next : α → Session → Plan β} {plan : Plan α} {a : α} {t : Session}
    (h : plan.run keep = (.ok a, t)) : (plan.bind next).run keep = (next a t).run keep := by
  induction plan with
  | done outcome =>
    obtain rfl : outcome = (.ok a, t) := h
    rfl
  | ask site more ih =>
    rcases hk : keep.at site with ⟨g | v, u⟩
    · rw [run_ask_error hk] at h
      cases h
    · rw [run_ask_ok hk] at h
      exact (run_ask_ok hk).trans (ih v u h)

theorem ends_bind {P : Outcome α → Prop} {Q : Outcome β → Prop} {next : α → Session → Plan β}
    {plan : Plan α} (h : plan.Ends P) (hn : ∀ a t, (next a t).Ends Q)
    (he : ∀ f t, P (.error f, t) → Q (.error f, t)) : (plan.bind next).Ends Q := by
  induction plan with
  | done outcome =>
    rcases outcome with ⟨f | a, t⟩
    · exact he f t h
    · exact hn a t
  | ask site more ih => exact fun v t => ih v t (h v t)

end Plan

/-- Whether a plan says what the runs of a family do in a session. -/
def Plan.Follows {α : Type} (plan : Plan α) (r : Keeper → Run α) (s : Session) : Prop :=
  ∀ keep, (r keep).start s = plan.run keep

/-- The runs of a family have plans that end without an end of their own, except in some sessions. -/
def Planned (stop : Session → Prop) (α : Type) (r : Keeper → Run α) : Prop :=
  ∀ s, ∃ plan : Plan α, plan.Follows r s ∧ plan.Ends fun o => o.1 = .error .endless → stop o.2

namespace Planned

variable {stop : Session → Prop} {α β : Type}

theorem leaf {r : Run α} (h : r.Quiet) : Planned stop α fun _ => r := by
  refine fun s => ⟨.done (r.start s), fun _ => rfl, fun he => ?_⟩
  cases h.shallow s _ he

theorem keep (ctx : Context) (parameters : Value) :
    Planned stop Value fun keep => keep ctx parameters := by
  refine fun s => ⟨.ask ⟨ctx, parameters, s⟩ fun v t => .done (.ok v, t), fun keep => ?_, fun v t h => ?_⟩
  · rcases hk : keep.at ⟨ctx, parameters, s⟩ with ⟨f | v, t⟩
    · rw [Plan.run_ask_error hk]
      exact hk
    · rw [Plan.run_ask_ok hk]
      exact hk
  · cases h

theorem pass (point : Waypoint) : Planned stop Unit fun _ => Run.pass point :=
  fun s => ⟨.done ((Run.pass point).start s), fun _ => rfl, fun h => nomatch h⟩

theorem bind {r : Keeper → Run α} {next : Keeper → α → Run β} (hr : Planned stop α r)
    (hn : ∀ a, Planned stop β fun keep => next keep a) :
    Planned stop β fun keep => r keep >>= next keep := by
  intro s
  obtain ⟨plan, hp, he⟩ := hr s
  choose further hf using hn
  refine ⟨plan.bind further, fun keep => ?_, Plan.ends_bind he (fun a t => (hf a t).2) fun f t h hf => ?_⟩
  · rcases Run.start_bind_cases (r keep) (next keep) s with ⟨f, t, hs, hb⟩ | ⟨a, t, hs, hb⟩
    · rw [hb, Plan.run_bind_error ((hp keep).symm.trans hs)]
    · rw [hb, Plan.run_bind_ok ((hp keep).symm.trans hs)]
      exact (hf a t).1 keep
  · cases hf
    exact h rfl

end Planned

/-- Parameters have plans that never end without an end. -/
theorem planned_preserving (engine : Engine) (ctx : Context) (node : Value) :
    Planned (fun _ => False) Value fun keep => expandValue engine keep .preserving ctx node := by
  have rules : ExpansionRules engine @Run.Quiet (Planned fun _ => False)
      fun mode _ => mode = .preserving :=
    { leaf := Planned.leaf
      bind := Planned.bind
      keep := fun parameters _ => Planned.keep _ parameters
      enter := fun _ => Planned.pass _
      iteration := fun _ _ h => h
      preserved := fun _ => rfl
      fetch := by
        intro ctx name next h
        cases h }
  exact rules.expandValue Run.quiet_evaluation rfl node

end PipelineTemplate.Expansion
