import PipelineTemplate.Proofs.Expansion.Step
import PipelineTemplate.Proofs.Expression.Evaluation

/-!
# Properties of expansions

A property of families of runs, one for each keeper, holds of all expansions if it holds of the steps
from which they are composed: evaluations, the points that they pass, what keepers do, and the
admission of templates. The contexts of these steps may be restricted to those that the steps lead to.
-/

namespace PipelineTemplate.Expansion

/-- The steps of expansions have a property in contexts that are good. -/
structure ExpansionRules (engine : Engine) (Q : (α : Type) → Run α → Prop)
    (P : (α : Type) → (Keeper → Run α) → Prop) (good : Mode → Context → Prop) : Prop where
  leaf : ∀ {α : Type} {r : Run α}, Q α r → P α fun _ => r
  bind : ∀ {α β : Type} {r : Keeper → Run α} {next : Keeper → α → Run β},
    P α r → (∀ a, P β fun keep => next keep a) → P β fun keep => r keep >>= next keep
  keep : ∀ {ctx} parameters, good .preserving ctx → P Value fun keep => keep ctx parameters
  enter : ∀ {mode ctx}, good mode ctx → P Unit fun _ => Run.pass (.entered ctx)
  iteration : ∀ {mode ctx} name element, good mode ctx → good mode (iteration ctx name element)
  preserved : ∀ {mode ctx}, good mode ctx → good .preserving ctx
  fetch : ∀ {ctx} name {next : Keeper → Admitted engine ctx → Run Value}, good .resolving ctx →
    (∀ t, (∀ given, good .resolving (t.context given)) → P Value fun keep => next keep t) →
    P Value fun keep => fetch engine ctx name >>= next keep

namespace ExpansionRules

variable {engine : Engine} {Q : (α : Type) → Run α → Prop}
  {P : (α : Type) → (Keeper → Run α) → Prop} {good : Mode → Context → Prop}
  (evaluation : EvaluationRules Q) (rules : ExpansionRules engine Q P good)

include evaluation rules

theorem pure {α : Type} (a : α) : P α fun _ => Pure.pure a := rules.leaf (evaluation.pure a)

theorem map {α β : Type} {r : Keeper → Run α} (f : α → β) (h : P α r) :
    P β fun keep => f <$> r keep := by
  simp only [map_eq_pure_bind]
  exact rules.bind h fun a => rules.pure evaluation (f a)

theorem mapM {α β : Type} {f : Keeper → α → Run β} (xs : List α)
    (h : ∀ x ∈ xs, P β fun keep => f keep x) : P (List β) fun keep => xs.mapM (f keep) := by
  induction xs with
  | nil => exact rules.pure evaluation []
  | cons x xs ih =>
    simp only [List.mapM_cons]
    refine rules.bind (h x List.mem_cons_self) fun y => rules.bind (ih fun x hx => ?_) fun ys => ?_
    · exact h x (List.mem_cons_of_mem _ hx)
    · exact rules.pure evaluation (y :: ys)

theorem foldlM {α β : Type} {f : Keeper → β → α → Run β} (xs : List α) (b : β)
    (h : ∀ b, ∀ x ∈ xs, P β fun keep => f keep b x) : P β fun keep => xs.foldlM (f keep) b := by
  induction xs generalizing b with
  | nil => exact rules.pure evaluation b
  | cons x xs ih =>
    simp only [List.foldlM_cons]
    refine rules.bind (h b x List.mem_cons_self) fun c => ih c fun b x hx => ?_
    exact h b x (List.mem_cons_of_mem _ hx)

theorem preserveReference {ctx : Context} (hc : good .preserving ctx) (template parameters : Value) :
    P Value fun keep => preserveReference keep ctx template parameters := by
  unfold Expansion.preserveReference
  refine rules.bind (rules.leaf (evaluation.substituteValue ctx template)) fun t => ?_
  cases parameters.isUndefined
  · exact rules.bind (rules.keep parameters hc) fun p => rules.pure evaluation _
  · exact rules.pure evaluation _

mutual

theorem expandValue {mode : Mode} {ctx : Context} (hc : good mode ctx) (node : Value) :
    P Value fun keep => expandValue engine keep mode ctx node := by
  cases hi : node.items? with
  | some items =>
    simp only [expandValue_items hi]
    have := sizeOf_items hi
    exact rules.bind (expandItems hc false items) fun _ => rules.pure evaluation _
  | none =>
    cases hp : node.pairs? with
    | some entries =>
      have := sizeOf_pairs hp
      have entered (hr : mode = .preserving → node.reference? = none) :
          P Value fun keep => Expansion.expandValue engine keep mode ctx node := by
        simp only [expandValue_entries hp hr]
        exact rules.bind (expandEntries hc false [] entries) fun _ => rules.pure evaluation _
      -- While templates are preserved, a mapping that is a reference is kept.
      cases mode with
      | resolving => exact entered (by simp)
      | preserving =>
        cases hr : node.reference? with
        | none => exact entered fun _ => hr
        | some r =>
          simp only [expandValue_kept hp hr]
          exact rules.preserveReference evaluation hc r.1 r.2
    | none =>
      cases hr : node.reference? with
      | none =>
        simp only [expandValue_scalar hi hp hr]
        exact expandScalar hc node
      | some r =>
        obtain rfl := reference_of_pairs hp hr
        simp only [expandValue_reference]
        exact referenceItems hc r.1 r.2
termination_by (mode.stage, Template.levelsLeft engine ctx, sizeOf node, 1)
decreasing_by
  all_goals first
    | exact earlier_rank (by decide)
    | exact earlier_size (sizeOf_pos _)
    | exact earlier_size (by omega)

theorem expandItems {mode : Mode} {ctx : Context} (hc : good mode ctx) (taken : Bool)
    (items : List Value) : P (List Value) fun keep => expandItems engine keep mode ctx taken items := by
  match items with
  | [] =>
    simp only [expandItems_nil]
    exact rules.pure evaluation []
  | item :: rest =>
    have further (taken : Bool) := expandItems hc taken rest
    cases hr : item.reference? with
    | some r =>
      simp only [expandItems_reference hr]
      refine rules.bind (referenceItems hc r.1 r.2) fun here => ?_
      exact rules.bind (further _) fun _ => rules.pure evaluation _
    | none =>
      have plain (hd : ∀ d body, directiveItem? item = some (d, body) → d = .insert) :
          P (List Value) fun keep => Expansion.expandItems engine keep mode ctx taken (item :: rest) := by
        simp only [expandItems_plain hr hd]
        refine rules.bind (expandValue hc item) fun v => ?_
        split
        · exact further false
        · refine rules.bind (splice hc _) fun here => ?_
          exact rules.bind (further _) fun _ => rules.pure evaluation _
        · refine rules.bind (splice hc _) fun here => ?_
          exact rules.bind (further _) fun _ => rules.pure evaluation _
        · exact rules.bind (further _) fun _ => rules.pure evaluation _
      have branch (d : Directive) (body : Value) (hb : Branch d)
          (hd : directiveItem? item = some (d, body)) :
          P (List Value) fun keep => Expansion.expandItems engine keep mode ctx taken (item :: rest) := by
        have := sizeOf_body hd
        simp only [expandItems_branch hb hr hd]
        split
        · exact further _
        · refine rules.bind (rules.leaf (evaluation.holds ctx d)) fun held => ?_
          split
          · split
            · refine rules.bind (rules.pure evaluation []) fun here => ?_
              exact rules.bind (further _) fun _ => rules.pure evaluation _
            · refine rules.bind (branchItems hc body) fun here => ?_
              exact rules.bind (further _) fun _ => rules.pure evaluation _
          · exact further _
      cases hd : directiveItem? item with
      | none => exact plain (by simp [hd])
      | some found =>
        obtain ⟨d, body⟩ := found
        have := sizeOf_body hd
        cases d with
        | insert => exact plain (by simp [hd])
        | ifTrue c => exact branch _ body (.inr ⟨c, .inl rfl⟩) hd
        | elseIf c => exact branch _ body (.inr ⟨c, .inr rfl⟩) hd
        | otherwise => exact branch _ body (.inl rfl) hd
        | malformedEach =>
          simp only [expandItems_malformed hr hd]
          exact rules.bind (rules.leaf evaluation.reportMalformedLoop) fun _ => further _
        | each name collection =>
          simp only [expandItems_each hr hd]
          refine rules.bind (rules.leaf (evaluation.loopElements ctx collection)) fun elements => ?_
          refine rules.bind (rules.mapM evaluation elements fun element _ => ?_) fun here =>
            rules.bind (further _) fun _ => rules.pure evaluation _
          have inner := rules.iteration name element hc
          exact rules.bind (rules.enter inner) fun _ => branchItems inner body
termination_by (mode.stage, Template.levelsLeft engine ctx, sizeOf items, 0)
decreasing_by
  all_goals exact earlier_size (by simp only [List.cons.sizeOf_spec]; omega)

theorem branchItems {mode : Mode} {ctx : Context} (hc : good mode ctx) (body : Value) :
    P (List Value) fun keep => branchItems engine keep mode ctx body := by
  cases hi : body.items? with
  | some items =>
    simp only [branchItems_items hi]
    have := sizeOf_items hi
    exact expandItems hc false items
  | none =>
    cases hr : body.reference? with
    | some r =>
      simp only [branchItems_reference hr]
      exact rules.bind (referenceItems hc r.1 r.2) fun _ => rules.pure evaluation _
    | none =>
      simp only [branchItems_plain hi hr]
      refine rules.bind (expandValue hc body) fun v => ?_
      split <;> exact rules.pure evaluation _
termination_by (mode.stage, Template.levelsLeft engine ctx, sizeOf body, 2)
decreasing_by
  all_goals first
    | exact earlier_rank (by decide)
    | exact earlier_size (sizeOf_pos _)
    | exact earlier_size (by omega)

theorem expandEntries {mode : Mode} {ctx : Context} (hc : good mode ctx) (taken : Bool)
    (before pairs : Entries) :
    P Entries fun keep => expandEntries engine keep mode ctx taken before pairs := by
  match pairs with
  | [] =>
    simp only [expandEntries_nil]
    exact rules.pure evaluation before
  | (key, value) :: rest =>
    have further (taken : Bool) (before : Entries) := expandEntries hc taken before rest
    have branch (d : Directive) (hb : Branch d) (hd : Directive.ofKey? key = some d) :
        P Entries fun keep =>
          Expansion.expandEntries engine keep mode ctx taken before ((key, value) :: rest) := by
      simp only [expandEntries_branch hb hd]
      split
      · exact further _ _
      · refine rules.bind (rules.leaf (evaluation.holds ctx d)) fun held => ?_
        split
        · split
          · exact rules.bind (rules.pure evaluation []) fun _ => further _ _
          · exact rules.bind (branchEntries hc value) fun _ => further _ _
        · exact further _ _
    cases hd : Directive.ofKey? key with
    | none =>
      simp only [expandEntries_plain hd]
      refine rules.bind (expandValue hc value) fun v => ?_
      split
      · exact further _ _
      · exact rules.bind (rules.leaf (evaluation.substituteValue ctx key)) fun _ => further _ _
    | some d =>
      cases d with
      | ifTrue c => exact branch _ (.inr ⟨c, .inl rfl⟩) hd
      | elseIf c => exact branch _ (.inr ⟨c, .inr rfl⟩) hd
      | otherwise => exact branch _ (.inl rfl) hd
      | malformedEach =>
        simp only [expandEntries_malformed hd]
        exact rules.bind (rules.leaf evaluation.reportMalformedLoop) fun _ => further _ _
      | insert =>
        simp only [expandEntries_insert hd]
        exact rules.bind (expandValue (rules.preserved hc) value) fun inserted => further _ _
      | each name collection =>
        simp only [expandEntries_each hd]
        refine rules.bind (rules.leaf (evaluation.loopElements ctx collection)) fun elements => ?_
        refine rules.bind (rules.foldlM evaluation elements [] fun merged element _ => ?_) fun merged =>
          further _ _
        have inner := rules.iteration name element hc
        refine rules.bind (rules.enter inner) fun _ => rules.bind (branchEntries inner value) fun branch => ?_
        exact rules.leaf (evaluation.mergeIteration ..)
termination_by (mode.stage, Template.levelsLeft engine ctx, sizeOf pairs, 0)
decreasing_by
  all_goals first
    | exact earlier_size (by simp only [List.cons.sizeOf_spec, Prod.mk.sizeOf_spec]; omega)
    | exact earlier_preserved mode (by simp only [List.cons.sizeOf_spec, Prod.mk.sizeOf_spec]; omega)

theorem branchEntries {mode : Mode} {ctx : Context} (hc : good mode ctx) (body : Value) :
    P Entries fun keep => branchEntries engine keep mode ctx body := by
  cases hi : body.items? with
  | some items =>
    simp only [branchEntries_items hi]
    have := sizeOf_items hi
    exact rules.bind (expandItems hc false items) fun _ => rules.pure evaluation _
  | none =>
    cases hp : body.pairs? with
    | some entries =>
      simp only [branchEntries_pairs hp]
      have := sizeOf_pairs hp
      exact expandEntries hc false [] entries
    | none =>
      simp only [branchEntries_scalar hi hp]
      refine rules.bind (expandScalar hc body) fun v => ?_
      split <;> exact rules.pure evaluation _
termination_by (mode.stage, Template.levelsLeft engine ctx, sizeOf body, 2)
decreasing_by
  all_goals first
    | exact earlier_rank (by decide)
    | exact earlier_size (sizeOf_pos _)
    | exact earlier_size (by omega)

theorem expandScalar {mode : Mode} {ctx : Context} (hc : good mode ctx) (v : Value) :
    P Value fun keep => expandScalar engine keep mode ctx v := by
  cases hv : v.text? with
  | none =>
    simp only [expandScalar_other hv]
    exact rules.pure evaluation v
  | some s =>
    obtain rfl := text_of_text? hv
    cases hw : isWholeExpression (Text.strip s) with
    | false =>
      simp only [expandScalar_partial hw]
      exact rules.bind (rules.leaf (evaluation.substitute ctx s)) fun _ => rules.pure evaluation _
    | true =>
      simp only [expandScalar_whole hw]
      refine rules.bind (rules.leaf (evaluation.evaluateText ctx _)) fun result => ?_
      unfold expandResult
      cases hr : result.reference? with
      | some r =>
        match mode with
        | .preserving => exact rules.preserveReference evaluation hc r.1 r.2
        | .resolving =>
          refine rules.bind (referenceItems hc r.1 r.2) fun items => ?_
          split <;> exact rules.pure evaluation _
      | none =>
        match mode with
        | .preserving => exact rules.pure evaluation _
        | .resolving =>
          simp only
          split
          · exact rules.pure evaluation _
          · split
            · exact rules.bind (splice hc _) fun _ => rules.pure evaluation _
            · exact rules.pure evaluation _
termination_by (mode.stage, Template.levelsLeft engine ctx, 0, 4)
decreasing_by all_goals exact earlier_rank (by decide)

theorem splice {mode : Mode} {ctx : Context} (hc : good mode ctx) (items : List Value) :
    P (List Value) fun keep => splice engine keep mode ctx items := by
  unfold Expansion.splice
  refine rules.bind (rules.mapM evaluation items fun item _ => ?_) fun _ => rules.pure evaluation _
  cases item.reference? with
  | none => exact rules.pure evaluation _
  | some r => exact rules.bind (referenceItems hc r.1 r.2) fun _ => rules.pure evaluation _
termination_by (mode.stage, Template.levelsLeft engine ctx, 0, 3)
decreasing_by all_goals exact earlier_rank (by decide)

theorem referenceItems {mode : Mode} {ctx : Context} (hc : good mode ctx) (template parameters : Value) :
    P Value fun keep => referenceItems engine keep mode ctx template parameters := by
  match mode with
  | .preserving =>
    simp only [referenceItems_preserving]
    exact rules.bind (rules.preserveReference evaluation hc template parameters) fun _ =>
      rules.pure evaluation _
  | .resolving =>
    simp only [referenceItems_resolving]
    refine rules.bind (rules.leaf (evaluation.substituteValue ctx template)) fun name => ?_
    split
    · split
      · exact rules.leaf (evaluation.skipReference template)
      · refine rules.fetch _ hc fun t ht => rules.bind ?_ fun given => ?_
        · unfold given
          split
          · exact rules.pure evaluation []
          · exact rules.map evaluation _ (expandValue (rules.preserved hc) parameters)
        · have := t.levelsLeft_lt given
          refine rules.bind (rules.enter (ht given)) fun _ => ?_
          refine rules.bind (rules.leaf (evaluation.report ..)) fun _ => ?_
          exact rules.bind (expandValue (ht given) _) fun _ => rules.pure evaluation _
    · exact rules.leaf (evaluation.skipReference template)
termination_by (mode.stage, Template.levelsLeft engine ctx, 0, 2)
decreasing_by
  all_goals first
    | exact earlier_left ‹_›
    | exact earlier_stage (by decide)

end

end ExpansionRules

end PipelineTemplate.Expansion
