import PipelineTemplate.Pipeline
import PipelineTemplate.Proofs.Expansion.Fetch
import PipelineTemplate.Proofs.Expansion.Plan

/-!
# Which expansions come to an end

The nesting of templates is limited, so nothing but the parameters of references that are kept can lead
to each other for ever. An expansion comes to an end unless it meets such references one inside the
other without end, or a document that contains itself.
-/

namespace PipelineTemplate.Expansion

/-! ## Growing limits -/

section Limits

variable {engine : Engine}

/-- A run that has not come to an end within the limit on kept references. -/
def Outcome.IsEndless {α : Type} (o : Outcome α) : Prop := o.1 = .error .endless

theorem Outcome.not_isEndless_ok {α : Type} (a : α) (t : Session) :
    ¬ Outcome.IsEndless (.ok a, t) := fun h => nomatch h

theorem Outcome.isEndless_error {α : Type} {f : Failure} {t : Session} :
    Outcome.IsEndless (α := α) (.error f, t) ↔ f = .endless := by
  simp [Outcome.IsEndless]

theorem Plan.run_mono {α : Type} {keep more : Keeper} (plan : Plan α)
    (h : ∀ site, ¬ (keep.at site).IsEndless → more.at site = keep.at site)
    (he : ¬ (plan.run keep).IsEndless) : plan.run more = plan.run keep := by
  induction plan with
  | done outcome => rfl
  | ask site next ih =>
    rcases hk : keep.at site with ⟨f | v, t⟩
    · rw [run_ask_error hk] at he ⊢
      have hf : ¬ (keep.at site).IsEndless := by
        rw [hk, Outcome.isEndless_error]
        exact fun hf => he (Outcome.isEndless_error.2 hf)
      exact run_ask_error ((h site hf).trans hk)
    · rw [run_ask_ok hk] at he ⊢
      have hv : ¬ (keep.at site).IsEndless := by
        rw [hk]
        exact Outcome.not_isEndless_ok v t
      rw [run_ask_ok ((h site hv).trans hk)]
      exact ih v t he

/-- The plan of the parameters at a site. -/
theorem exists_plan (engine : Engine) (site : Site) : ∃ plan : Plan Value,
    plan.Ends (fun o => ¬ o.IsEndless) ∧
      ∀ n, (keepWithin engine (n + 1)).at site = plan.run (keepWithin engine n) := by
  obtain ⟨plan, hp, he⟩ := planned_preserving engine site.ctx site.parameters site.session
  exact ⟨plan, he, fun n => hp (keepWithin engine n)⟩

theorem keepWithin_succ (n : Nat) (site : Site) (he : ¬ ((keepWithin engine n).at site).IsEndless) :
    (keepWithin engine (n + 1)).at site = (keepWithin engine n).at site := by
  induction n generalizing site with
  | zero => exact absurd rfl he
  | succ n ih =>
    obtain ⟨plan, -, hp⟩ := exists_plan engine site
    rw [hp] at he
    rw [hp, hp]
    exact plan.run_mono ih he

theorem keepWithin_mono {n m : Nat} (h : n ≤ m) (site : Site)
    (he : ¬ ((keepWithin engine n).at site).IsEndless) :
    (keepWithin engine m).at site = (keepWithin engine n).at site := by
  induction h with
  | refl => rfl
  | step _ ih => rw [keepWithin_succ _ site (by rw [ih]; exact he), ih]

end Limits

/-! ## Sites that lead to each other -/

/-- The parameters at a site come to an end with an outcome, within some limit. -/
def Site.Settles (engine : Engine) (site : Site) (o : Outcome Value) : Prop :=
  ¬ o.IsEndless ∧ ∃ n, (keepWithin engine n).at site = o

/-- A plan comes to a site after questions that were all settled. -/
inductive Plan.Meets {α : Type} (engine : Engine) : Plan α → Site → Prop where
  | here {site : Site} {next : Value → Session → Plan α} : (ask site next).Meets engine site
  | later {site later : Site} {next : Value → Session → Plan α} {v : Value} {t : Session}
      (settled : site.Settles engine (.ok v, t)) (meets : (next v t).Meets engine later) :
      (ask site next).Meets engine later

/-- A run comes to a site where it leaves parameters to its keeper, all sites before having settled. -/
def Meets {α : Type} (engine : Engine) (r : Keeper → Run α) (s : Session) (site : Site) : Prop :=
  ∃ plan : Plan α, plan.Follows r s ∧ plan.Meets engine site

/-- The parameters at a site are expanded up to another site. -/
def Site.Leads (engine : Engine) (site next : Site) : Prop :=
  Meets engine (fun keep => expandValue engine keep .preserving site.ctx site.parameters) site.session
    next

section Chains

variable {engine : Engine} {α : Type}

theorem Site.Settles.unique {site : Site} {o : Outcome Value} (h : site.Settles engine o) (n : Nat)
    (he : ¬ ((keepWithin engine n).at site).IsEndless) : (keepWithin engine n).at site = o := by
  obtain ⟨hs, m, rfl⟩ := h
  rcases Nat.le_total n m with hn | hn
  · exact (keepWithin_mono hn site he).symm
  · exact keepWithin_mono hn site hs

/-- A run that comes to a site does not come to an end before the parameters there do. -/
theorem Plan.Meets.endless {plan : Plan α} {site : Site} (h : plan.Meets engine site) {n : Nat}
    (hn : ((keepWithin engine n).at site).IsEndless) : (plan.run (keepWithin engine n)).IsEndless := by
  induction h with
  | @here site next =>
    rcases hk : (keepWithin engine n).at site with ⟨f | v, t⟩
    · rw [run_ask_error hk]
      rw [hk] at hn
      cases hn
      rfl
    · rw [hk] at hn
      cases hn
  | @later first later next v t settled _ ih =>
    by_cases he : ((keepWithin engine n).at first).IsEndless
    · rcases hk : (keepWithin engine n).at first with ⟨f | v, t⟩
      · rw [run_ask_error hk]
        rw [hk] at he
        cases he
        rfl
      · rw [hk] at he
        cases he
    · rw [run_ask_ok (settled.unique n he)]
      exact ih hn

/-- No parameters on an endless chain of sites come to an end. -/
theorem chain_endless (chain : Nat → Site) (h : ∀ i, (chain i).Leads engine (chain (i + 1))) (n i : Nat) :
    ((keepWithin engine n).at (chain i)).IsEndless := by
  induction n generalizing i with
  | zero => rfl
  | succ n ih =>
    obtain ⟨plan, hp, hm⟩ := h i
    have hk : (keepWithin engine (n + 1)).at (chain i) = plan.run (keepWithin engine n) := hp _
    rw [hk]
    exact hm.endless (ih (i + 1))

variable (engine) in
/-- A plan ends the same within all larger limits, or comes to a site that never settles. -/
theorem Plan.ends_or_meets (P : Outcome α → Prop) (hP : ∀ o, ¬ Outcome.IsEndless o → P o)
    (plan : Plan α) (h : plan.Ends P) :
    (∃ N o, P o ∧ ∀ n ≥ N, plan.run (keepWithin engine n) = o) ∨
      ∃ site, plan.Meets engine site ∧ ∀ o, ¬ site.Settles engine o := by
  induction plan with
  | done o => exact .inl ⟨0, o, h, fun _ _ => rfl⟩
  | ask site next ih =>
    by_cases hs : ∃ o, site.Settles engine o
    · obtain ⟨o, ho⟩ := hs
      have ⟨he, m, hm⟩ := ho
      have settled (n : Nat) (hn : n ≥ m) : (keepWithin engine n).at site = o := by
        rw [← hm] at he ⊢
        exact keepWithin_mono hn site he
      rcases o with ⟨f | v, t⟩
      · refine .inl ⟨m, (.error f, t), hP _ ?_, fun n hn => run_ask_error (settled n hn)⟩
        exact fun hf => he (Outcome.isEndless_error.2 (Outcome.isEndless_error.1 hf))
      · rcases ih v t (h v t) with ⟨N, o, ho', hN⟩ | ⟨later, hl, hu⟩
        · refine .inl ⟨max m N, o, ho', fun n hn => ?_⟩
          rw [run_ask_ok (settled n (by omega))]
          exact hN n (by omega)
        · exact .inr ⟨later, .later ho hl, hu⟩
    · exact .inr ⟨site, .here, not_exists.1 hs⟩

/-- Parameters that do not come to an end lead to others that do not. -/
theorem Site.exists_leads {site : Site} (h : ∀ o, ¬ site.Settles engine o) :
    ∃ next : Site, site.Leads engine next ∧ ∀ o, ¬ next.Settles engine o := by
  obtain ⟨plan, hp, he⟩ := planned_preserving engine site.ctx site.parameters site.session
  rcases plan.ends_or_meets engine (fun o => ¬ o.IsEndless) (fun _ h => h) he with
    ⟨N, o, ho, hN⟩ | ⟨next, hn, hu⟩
  · have hk : (keepWithin engine (N + 1)).at site = o := (hp _).trans (hN N (Nat.le_refl N))
    exact absurd ⟨ho, N + 1, hk⟩ (h o)
  · exact ⟨next, ⟨plan, hp, hn⟩, hu⟩

/-- From parameters that do not come to an end a chain goes on for ever. -/
theorem Site.exists_chain {site : Site} (h : ∀ o, ¬ site.Settles engine o) :
    ∃ chain : Nat → Site, chain 0 = site ∧ ∀ i, (chain i).Leads engine (chain (i + 1)) := by
  let Unsettled := {site : Site // ∀ o, ¬ site.Settles engine o}
  choose next leads unsettled using fun s : Unsettled => Site.exists_leads s.2
  let chain : Nat → Unsettled := Nat.rec ⟨site, h⟩ fun _ s => ⟨next s, unsettled s⟩
  exact ⟨fun i => (chain i).1, rfl, fun i => leads (chain i)⟩

/-- An expression whose value is a reference leads to the parameters that this passes. -/
theorem Site.leads_of_reference {ctx : Context} {e : String} {s t u : Session}
    {v name template parameters : Value} (he : isWholeExpression (Text.strip e) = true)
    (hv : (ctx.evaluateText (expressionBody (Text.strip e))).start s = (.ok v, t))
    (hr : v.reference? = some (template, parameters)) (hp : parameters.isUndefined = false)
    (hn : (ctx.substituteValue template).start t = (.ok name, u)) :
    Site.Leads engine ⟨ctx, .text e, s⟩ ⟨ctx, parameters, u⟩ := by
  let kept (p : Value) (w : Session) : Plan Value :=
    .done (.ok (.map [(.text "template", name), (.text "parameters", p)]), w)
  refine ⟨.ask ⟨ctx, parameters, u⟩ kept, fun keep => ?_, .here⟩
  change (expandValue engine keep .preserving ctx (.text e)).start s = _
  rw [expandValue_scalar rfl rfl rfl, expandScalar_whole he, Run.start_bind_ok hv]
  simp only [expandResult, hr, preserveReference, hp]
  rw [Run.start_bind_ok hn]
  rcases hk : keep.at ⟨ctx, parameters, u⟩ with ⟨f | p, w⟩
  · rw [Plan.run_ask_error hk]
    exact Run.start_bind_error hk
  · rw [Plan.run_ask_ok hk]
    exact Run.start_bind_ok hk

/-- A parameter whose reference passes the parameter itself never comes to an end. -/
theorem Site.unsettled_of_self {ctx : Context} {e : String} {s : Session} {v name template : Value}
    (he : isWholeExpression (Text.strip e) = true)
    (hv : (ctx.evaluateText (expressionBody (Text.strip e))).start s = (.ok v, s))
    (hr : v.reference? = some (template, .text e))
    (hn : (ctx.substituteValue template).start s = (.ok name, s)) (o : Outcome Value) :
    ¬ Site.Settles engine ⟨ctx, .text e, s⟩ o := by
  rintro ⟨ho, n, rfl⟩
  have leads : Site.Leads engine ⟨ctx, .text e, s⟩ ⟨ctx, .text e, s⟩ :=
    Site.leads_of_reference he hv hr rfl hn
  exact ho (chain_endless (fun _ => ⟨ctx, .text e, s⟩) (fun _ => leads) n 0)

end Chains

/-! ## Whole expansions -/

/-- The template found last has a document that contains itself. -/
def FoundEndless (t : Session) : Prop :=
  ∃ ctx reference path before text, t.trail = .found ctx reference path :: before ∧
    t.world.readText path = .ok text ∧ Yaml.read text = .error .endless

theorem planned_fetch (engine : Engine) (ctx : Context) (name : String) :
    Planned FoundEndless (Admitted engine ctx) fun _ => fetch engine ctx name := by
  refine fun s => ⟨.done ((fetch engine ctx name).start s), fun _ => rfl, fun he => ?_⟩
  have h := fetched engine ctx name s
  generalize (fetch engine ctx name).start s = o at h he ⊢
  cases h with
  | lost lost =>
    cases he
    obtain ⟨u, hu⟩ := lost
    cases locate_shallow hu
  | refused found checked =>
    cases he
    rcases check_eq_error checked with ⟨-, hf⟩ | ⟨-, -, hf⟩ <;> cases hf
  | @unread located f t found checked unread world trail =>
    cases he
    obtain ⟨-, text, ht, hr⟩ := Template.Located.read_deep unread rfl
    exact ⟨ctx, located.reference, located.path, s.trail, text, trail, by rw [world]; exact ht, hr⟩
  | read => cases he

/-- Expansions have plans that end without an end of their own only at a document that contains
itself. -/
theorem planned_expandValue (engine : Engine) (mode : Mode) (ctx : Context) (node : Value) :
    Planned FoundEndless Value fun keep => expandValue engine keep mode ctx node := by
  have rules : ExpansionRules engine @Run.Quiet (Planned FoundEndless) fun _ _ => True :=
    { leaf := Planned.leaf
      bind := Planned.bind
      keep := fun parameters _ => Planned.keep _ parameters
      enter := fun _ => Planned.pass _
      iteration := fun _ _ h => h
      preserved := fun h => h
      fetch := by
        intro ctx name next _ hn
        exact (planned_fetch engine ctx name).bind fun t => hn t fun _ => trivial }
  exact rules.expandValue Run.quiet_evaluation trivial node

end PipelineTemplate.Expansion

namespace PipelineTemplate.Pipeline

open Expansion

variable (engine : Engine) (text : String) (options : Options) (s : Session)

/-- What an expansion gives when so many kept references may be nested. -/
def expandWithin (n : Nat) : Outcome Value :=
  (expandWith engine (keepWithin engine n) text options).start s

/-- However many kept references may be nested, the expansion needs more. -/
def Descends : Prop := ∀ n, (expandWithin engine text options s n).IsEndless

/-- The expansion comes to an end with an outcome. -/
def Ends (o : Outcome Value) : Prop :=
  ¬ o.IsEndless ∧ ∃ N, ∀ n ≥ N, expandWithin engine text options s n = o

/-- The expansion comes to references that are kept one inside the other without end. -/
def MeetsChain : Prop :=
  ∃ chain : Nat → Site, Meets engine (fun keep => expandWith engine keep text options) s (chain 0) ∧
    ∀ i, (chain i).Leads engine (chain (i + 1))

/-- The document contains itself, or the expansion comes to a template whose document does. -/
def MeetsEndlessDocument : Prop :=
  Yaml.read text = .error .endless ∨
    ∃ N, ∀ n ≥ N, ∃ t, expandWithin engine text options s n = (.error .endless, t) ∧ FoundEndless t

variable {engine text options s}

theorem expandWithin_unread {f : Failure} (h : Pipeline.document text options = .error f) (n : Nat) :
    expandWithin engine text options s n = (.error f, s) := by
  unfold expandWithin expandWith
  rw [h]
  rfl

theorem document_endless :
    Pipeline.document text options = .error .endless ↔ Yaml.read text = .error .endless := by
  cases hr : Yaml.read text with
  | error fault =>
    have hd : Pipeline.document text options = .error (Yaml.documentFailure options.fileName fault) := by
      unfold Pipeline.document Yaml.load
      rw [hr]
      rfl
    rw [hd, Except.error.injEq, Except.error.injEq]
    cases fault <;> simp [Yaml.documentFailure, Fault.failure]
  | ok v =>
    have hd : ∃ w, Pipeline.document text options = .ok w := by
      unfold Pipeline.document Yaml.load
      rw [hr]
      cases v <;> exact ⟨_, rfl⟩
    obtain ⟨w, hw⟩ := hd
    simp [hw]

variable (engine) in
/-- The expansion of a document that can be read has a plan. -/
theorem planned_expandWith {document : Value} (h : Pipeline.document text options = .ok document) :
    Planned FoundEndless Value fun keep => expandWith engine keep text options := by
  unfold expandWith
  rw [h]
  refine Planned.bind (Planned.leaf (Run.quiet_pure document)) fun document => ?_
  refine Planned.bind (Planned.leaf Run.quiet_get) fun s => Planned.bind (Planned.pass _) fun _ => ?_
  refine Planned.bind (Planned.leaf (Run.quiet_report ..)) fun _ => ?_
  refine Planned.bind (planned_expandValue engine .resolving _ document) fun v => ?_
  exact Planned.bind (Planned.leaf (Run.quiet_report ..)) fun _ => Planned.leaf (Run.quiet_pure v)

theorem expandWithin_mono {n m : Nat} (hm : n ≤ m)
    (he : ¬ (expandWithin engine text options s n).IsEndless) :
    expandWithin engine text options s m = expandWithin engine text options s n := by
  cases hd : Pipeline.document text options with
  | error f => rw [expandWithin_unread hd, expandWithin_unread hd]
  | ok document =>
    obtain ⟨plan, hp, -⟩ := planned_expandWith engine hd s
    simp only [expandWithin, hp _] at he ⊢
    exact plan.run_mono (fun site => keepWithin_mono hm site) he

theorem ends_of_not_descends (h : ¬ Descends engine text options s) :
    ∃ o, Ends engine text options s o := by
  obtain ⟨n, hn⟩ := not_forall.1 h
  exact ⟨expandWithin engine text options s n, hn, n, fun m hm => expandWithin_mono hm hn⟩

theorem meets_of_descends (h : Descends engine text options s) :
    MeetsChain engine text options s ∨ MeetsEndlessDocument engine text options s := by
  cases hd : Pipeline.document text options with
  | error f =>
    have he := h 0
    rw [expandWithin_unread hd, Outcome.isEndless_error] at he
    subst he
    exact .inr (.inl (document_endless.1 hd))
  | ok document =>
    obtain ⟨plan, hp, he⟩ := planned_expandWith engine hd s
    rcases plan.ends_or_meets engine _ (fun o h h' => absurd h' h) he with
      ⟨N, o, ho, hN⟩ | ⟨site, hm, hu⟩
    · have run (n : Nat) (hn : n ≥ N) : expandWithin engine text options s n = o :=
        (hp _).trans (hN n hn)
      have he : o.1 = .error .endless := run N (Nat.le_refl N) ▸ h N
      refine .inr (.inr ⟨N, fun n hn => ⟨o.2, ?_, ho he⟩⟩)
      rw [run n hn, ← he]
    · obtain ⟨chain, rfl, hc⟩ := Site.exists_chain hu
      exact .inl ⟨chain, ⟨plan, hp, hm⟩, hc⟩

theorem descends_of_chain (h : MeetsChain engine text options s) : Descends engine text options s := by
  obtain ⟨chain, ⟨plan, hp, hm⟩, hc⟩ := h
  intro n
  rw [expandWithin, hp]
  exact hm.endless (chain_endless chain hc n 0)

theorem descends_of_endlessDocument (h : MeetsEndlessDocument engine text options s) :
    Descends engine text options s := by
  intro n
  rcases h with hr | ⟨N, hN⟩
  · rw [expandWithin_unread (document_endless.2 hr)]
    rfl
  · by_contra he
    obtain ⟨t, ht, -⟩ := hN (max n N) (by omega)
    rw [← expandWithin_mono (show n ≤ max n N by omega) he, ht] at he
    exact he rfl

end PipelineTemplate.Pipeline
