import Mathlib.Data.List.Forall2
import PipelineTemplate.Proofs.Entries
import PipelineTemplate.Proofs.Expansion.Step
import PipelineTemplate.Proofs.Run.Start

/-!
# The parameters of a template

The parameters in the context of a template: what the caller passes is laid over what the template
declares, and that over the parameters of the caller. A caller may pass parameters as a mapping or as a
list of named values. A mapping with an entry for a template is taken for a reference instead.
-/

namespace PipelineTemplate

/-- A name without blanks at its ends and without expressions. -/
structure PlainName (n : String) : Prop where
  trimmed : Text.strip n = n
  plain : Text.hasInfix Embedded.opening n.toList = false

namespace PlainName

variable {n : String} (h : PlainName n)

include h

theorem trim_toList : Text.trim n.toList = n.toList := by
  have ht : String.ofList (Text.trim n.toList) = String.ofList n.toList := by
    rw [String.ofList_toList]
    exact h.trimmed
  simpa using congrArg String.toList ht

theorem isBlankText_iff : Text.isBlankText n = true ↔ n = "" := by
  constructor
  · intro hb
    have ht : Text.trim n.toList = [] := by
      refine Text.trimEnd_eq_nil_iff.2 fun c hc => ?_
      exact List.all_eq_true.1 hb c ((List.dropWhile_suffix _).subset hc)
    rw [h.trim_toList] at ht
    exact String.toList_eq_nil_iff.1 ht
  · rintro rfl
    rfl

end PlainName

namespace Expansion

variable {engine : Engine} {keep : Keeper} {ctx : Context}

variable (engine keep ctx) in
/-- An entry with a plain name is added unless its value is undefined. -/
theorem expandEntries_name {n : String} (h : PlainName n) (mode : Mode) (before rest : Entries)
    (value : Value) :
    expandEntries engine keep mode ctx false before ((.text n, value) :: rest) = (do
      let v ← expandValue engine keep mode ctx value
      expandEntries engine keep mode ctx false
        (if v.isUndefined then before else before.insert (.text n) v) rest) := by
  rw [expandEntries_plain (PlainText.ofKey?_eq_none h.plain), substituteValue_plain h.plain]
  refine bind_congr fun v => ?_
  cases v <;> rfl

/-- The values of named parameters, expanded one after the other with their references kept. -/
def expandNamed (engine : Engine) (keep : Keeper) (ctx : Context) (said : List (String × Value)) :
    Run (List Value) :=
  said.mapM fun entry => expandValue engine keep .preserving ctx entry.2

theorem expandNamed_cons (n : String) (v : Value) (rest : List (String × Value)) :
    expandNamed engine keep ctx ((n, v) :: rest) = (do
      let w ← expandValue engine keep .preserving ctx v
      let values ← expandNamed engine keep ctx rest
      return w :: values) := List.mapM_cons

/-- The entries of named values. -/
def namedEntries (said : List (String × Value)) : Entries :=
  said.map fun entry => (.text entry.1, entry.2)

/-- The entries of the named values that are defined. -/
def definedEntries (passed : List (String × Value)) : Entries :=
  namedEntries (passed.filter fun entry => !entry.2.isUndefined)

theorem insert_named {before : List (String × Value)} {n : String} (v : Value)
    (h : n ∉ before.map Prod.fst) :
    (namedEntries before).insert (.text n) v = namedEntries (before ++ [(n, v)]) := by
  induction before with
  | nil => rfl
  | cons entry rest ih =>
    obtain ⟨m, w⟩ := entry
    simp only [List.map_cons, List.mem_cons, not_or] at h
    have hm : (Value.text m).equal (.text n) = false := by
      rw [Bool.eq_false_iff, ne_eq, Value.equal_text, Value.text.injEq]
      exact fun he => h.1 he.symm
    have hr := ih h.2
    simp only [namedEntries, List.map_cons, List.cons_append, Entries.insert, hm, Bool.false_eq_true,
      if_false] at hr ⊢
    rw [hr]

theorem update_named {before passed : List (String × Value)}
    (h : ((before ++ passed).map Prod.fst).Nodup) :
    (namedEntries before).update (namedEntries passed) = namedEntries (before ++ passed) := by
  induction passed generalizing before with
  | nil => simp [namedEntries]
  | cons entry rest ih =>
    obtain ⟨n, v⟩ := entry
    have hn : n ∉ before.map Prod.fst := by
      intro hn
      rw [List.map_append, List.nodup_append] at h
      exact h.2.2 n hn n (by simp) rfl
    have hi := insert_named v hn
    have hr := @ih (before ++ [(n, v)]) (by simpa using h)
    rw [← hi] at hr
    simpa [namedEntries] using hr

/-- Entries with distinct names stay as they are. -/
theorem ofPairs_named {passed : List (String × Value)} (h : (passed.map Prod.fst).Nodup) :
    Entries.ofPairs (namedEntries passed) = namedEntries passed :=
  @update_named [] passed h

/-! ## Parameters as a mapping -/

theorem expandEntries_named {said : List (String × Value)} (hs : ∀ n ∈ said.map Prod.fst, PlainName n)
    (before : Entries) :
    expandEntries engine keep .preserving ctx false before (namedEntries said) = (do
      let values ← expandNamed engine keep ctx said
      return before.update (definedEntries ((said.map Prod.fst).zip values))) := by
  induction said generalizing before with
  | nil =>
    rw [namedEntries, List.map_nil, expandEntries_nil]
    rfl
  | cons entry rest ih =>
    obtain ⟨n, v⟩ := entry
    have hrest : ∀ m ∈ rest.map Prod.fst, PlainName m := fun m hm => hs m (by simp_all)
    have hstep := expandEntries_name engine keep ctx (hs n (by simp))
      .preserving before (namedEntries rest) v
    simp only [expandNamed_cons, bind_assoc, pure_bind]
    refine hstep.trans (bind_congr fun w => ?_)
    rw [ih hrest]
    refine bind_congr fun values => ?_
    cases hw : w.isUndefined <;> simp [definedEntries, namedEntries, hw]

/-! ## Parameters as a list -/

/-- An item that passes a value under a name. -/
inductive Passes (item : Value) (entry : String × Value) : Prop where
  | nameFirst (h : item.pairs? =
      some [(.text "name", .text entry.1), (.text "value", entry.2)])
  | valueFirst (h : item.pairs? =
      some [(.text "value", entry.2), (.text "name", .text entry.1)])

theorem plainName_name : PlainName "name" := ⟨by decide, by decide⟩

theorem plainName_value : PlainName "value" := ⟨by decide, by decide⟩

theorem Passes.reference?_eq_none {item : Value} {entry : String × Value} (h : Passes item entry) :
    item.reference? = none := by
  rcases h with h | h <;> cases item <;> simp only [Value.pairs?, Option.some.injEq, reduceCtorEq] at h <;>
    subst h <;> simp [Value.reference?, Entries.get?, Value.equal]

theorem Passes.directiveItem?_eq_none {item : Value} {entry : String × Value} (h : Passes item entry) :
    directiveItem? item = none := by
  rcases h with h | h <;> cases item <;> simp only [Value.pairs?, Option.some.injEq, reduceCtorEq] at h <;>
    subst h <;> rfl

/-- What an item with a plain name passes; nothing is passed under an empty name. -/
theorem passedEntries_named {n : String} (hn : PlainName n) {es : Entries} {w : Value}
    (hname : Entries.get? (.text "name") es = some (.text n))
    (hvalue : (Value.map es).firstField ["value", "default", "values"] = w) :
    passedEntries (.map es) = if n = "" then [] else [(.text n, w)] := by
  have hget : (Value.map es).get? (.text "name") = some (.text n) := hname
  simp only [passedEntries, hget, hvalue, hn.trimmed]
  by_cases he : n = ""
  · simp [he, Text.isBlankText]
  · have hb : Text.isBlankText n = false := Bool.eq_false_iff.2 fun hb => he (hn.isBlankText_iff.1 hb)
    simp [he, hb]

variable (engine keep ctx) in
/-- An item is expanded to one that passes the expanded value. -/
theorem Passes.expandValue {item : Value} {n : String} {v : Value} (hn : PlainName n)
    (h : Passes item (n, v)) :
    ∃ f : Value → Entries, (expandValue engine keep .preserving ctx item = do
        return .map (f (← expandValue engine keep .preserving ctx v))) ∧
      ∀ w, passedEntries (.map (f w)) = if n = "" then [] else [(.text n, w)] := by
  have hr := h.reference?_eq_none
  rcases h with hp | hp
  · refine ⟨fun w => if w.isUndefined then [(.text "name", .text n)]
      else [(.text "name", .text n), (.text "value", w)], ?_, fun w => ?_⟩
    · rw [expandValue_entries hp fun _ => hr, expandEntries_name engine keep ctx plainName_name, expandValue_text hn.plain,
        pure_bind, expandEntries_name engine keep ctx plainName_value]
      simp only [bind_assoc]
      refine bind_congr fun w => ?_
      rw [expandEntries_nil]
      cases hw : w.isUndefined <;> simp [Value.isUndefined, Entries.insert, Value.equal]
    · apply passedEntries_named hn
      · cases hw : w.isUndefined <;> simp [hw, Entries.get?, Value.equal]
      · cases w <;> simp [Value.firstField, firstDefined, Value.field, Value.get?, Value.pairs?,
          Value.isUndefined, Entries.get?, Value.equal]
  · refine ⟨fun w => if w.isUndefined then [(.text "name", .text n)]
      else [(.text "value", w), (.text "name", .text n)], ?_, fun w => ?_⟩
    · rw [expandValue_entries hp fun _ => hr, expandEntries_name engine keep ctx plainName_value]
      simp only [bind_assoc]
      refine bind_congr fun w => ?_
      rw [expandEntries_name engine keep ctx plainName_name, expandValue_text hn.plain, pure_bind, expandEntries_nil]
      cases hw : w.isUndefined <;> simp [Value.isUndefined, Entries.insert, Value.equal]
    · apply passedEntries_named hn
      · cases hw : w.isUndefined <;> simp [hw, Entries.get?, Value.equal]
      · cases w <;> simp [Value.firstField, firstDefined, Value.field, Value.get?, Value.pairs?,
          Value.isUndefined, Entries.get?, Value.equal]

variable (engine keep ctx) in
theorem expandItems_named {items : List Value} {said : List (String × Value)}
    (hs : ∀ n ∈ said.map Prod.fst, PlainName n) (hp : List.Forall₂ Passes items said) :
    ∃ f : List Value → List Value,
      (expandItems engine keep .preserving ctx false items = do
        return f (← expandNamed engine keep ctx said)) ∧
      ∀ values, (f values).flatMap passedEntries =
        namedEntries (((said.map Prod.fst).zip values).filter fun entry => entry.1 ≠ "") := by
  induction hp with
  | nil =>
    refine ⟨fun _ => [], ?_, fun _ => rfl⟩
    rw [expandItems_nil]
    rfl
  | @cons item entry items said hi _ ih =>
    obtain ⟨n, v⟩ := entry
    obtain ⟨f, hf, hpassed⟩ := ih fun m hm => hs m (by simp_all)
    obtain ⟨g, hg, hitem⟩ := hi.expandValue engine keep ctx (hs n (by simp))
    refine ⟨fun values => (values.take 1).map (fun w => .map (g w)) ++ f values.tail, ?_,
      fun values => ?_⟩
    · rw [expandItems_plain hi.reference?_eq_none (by simp [hi.directiveItem?_eq_none]), hg, hf,
        expandNamed_cons]
      simp only [bind_assoc, pure_bind]
      rfl
    · have hrest := hpassed values.tail
      cases values with
      | nil => simpa using hrest
      | cons w values =>
        have hw := hitem w
        by_cases he : n = ""
        · simpa [hw, he] using hrest
        · simpa [hw, he, namedEntries] using hrest

/-! ## The context of a template -/

/-- The context that the body of a template is expanded in when a reference passes parameters. -/
def bodyContext (engine : Engine) (keep : Keeper) {ctx : Context} (t : Admitted engine ctx)
    (parameters : Value) : Run Context := do
  return t.context (← given engine keep ctx parameters)

theorem referenceItems_bodyContext (engine : Engine) (keep : Keeper) (ctx : Context)
    (template parameters : Value) :
    referenceItems engine keep .resolving ctx template parameters = (do
      match ← ctx.substituteValue template with
      | .text s =>
        if Text.isBlankText s then skipReference template
        else do
          let t ← fetch engine ctx (Text.strip s)
          let inner ← bodyContext engine keep t parameters
          templateItems engine keep t inner
      | _ => skipReference template) := by
  rw [referenceItems_resolving]
  simp only [bodyContext, bind_assoc, pure_bind] <;> rfl

/-- A section of parameters passes values under names, as a mapping or as a list of items. -/
inductive Says (said : List (String × Value)) (parameters : Value) : Prop where
  | mapping (h : parameters.pairs? = some (namedEntries said))
  | list {items : List Value} (h : parameters.items? = some items) (hp : List.Forall₂ Passes items said)

/-- The value that a name has when defined values are laid over declarations and these over what is there
already. -/
def overlay (passed : List (String × Value)) (declared calling : Entries) (n : String) : Option Value :=
  ((passed.lookup n).filter fun v => !v.isUndefined).or
    ((declared.get? (.text n)).or (calling.get? (.text n)))

theorem lookup_eq_none {passed : List (String × Value)} {n : String} (h : n ∉ passed.map Prod.fst) :
    passed.lookup n = none := by
  rw [List.lookup_eq_none_iff]
  intro entry he
  rw [bne_iff_ne]
  rintro rfl
  exact h (List.mem_map.2 ⟨entry, he, rfl⟩)

theorem get?_namedEntries {passed : List (String × Value)} (h : (passed.map Prod.fst).Nodup)
    (n : String) : Entries.get? (.text n) (namedEntries passed) = passed.lookup n := by
  induction passed with
  | nil => rfl
  | cons entry rest ih =>
    obtain ⟨m, v⟩ := entry
    rw [List.map_cons, List.nodup_cons] at h
    have hcons := Entries.get?_cons (.text m) v (namedEntries rest) (.text n)
    have hr := ih h.2
    by_cases hm : n = m
    · subst hm
      have hnone := lookup_eq_none h.1
      rw [List.lookup_cons_self, namedEntries, List.map_cons]
      refine hcons.trans ?_
      rw [hr, hnone, if_pos (Value.equal_text.2 rfl)]
      rfl
    · have hk : (Value.text m).equal (.text n) = false := by
        rw [Bool.eq_false_iff, ne_eq, Value.equal_text, Value.text.injEq]
        exact fun he => hm he.symm
      have hb : (n == m) = false := by simpa using hm
      rw [List.lookup_cons, hb, namedEntries, List.map_cons]
      refine hcons.trans ?_
      rw [hr, hk]
      simp

theorem lookup_filter {passed : List (String × Value)} (h : (passed.map Prod.fst).Nodup)
    (p : Value → Bool) (n : String) :
    (passed.filter fun entry => p entry.2).lookup n = (passed.lookup n).filter p := by
  induction passed with
  | nil => rfl
  | cons entry rest ih =>
    obtain ⟨m, v⟩ := entry
    rw [List.map_cons, List.nodup_cons] at h
    have hr := ih h.2
    by_cases hm : n = m
    · subst hm
      have hnone := lookup_eq_none h.1
      rw [hnone] at hr
      cases hv : p v <;> simp [hv, hr, Option.filter_some]
    · have hb : (n == m) = false := by simpa using hm
      cases hv : p v <;> simp [hv, hr, List.lookup_cons, hb]

/-! ## The overlay -/

theorem filter_named {passed : List (String × Value)} :
    (namedEntries passed).filter (fun entry => !entry.2.isUndefined) = definedEntries passed := by
  simp [definedEntries, namedEntries, List.filter_map, Function.comp_def]

/-- A context depends on the parameters that are defined. -/
theorem context_named {engine : Engine} {ctx : Context} (t : Admitted engine ctx)
    (passed : List (String × Value)) :
    t.context (namedEntries passed) = t.context (definedEntries passed) := by
  have hf : (definedEntries passed).filter (fun entry => !entry.2.isUndefined) =
      definedEntries passed := by
    rw [definedEntries, filter_named, definedEntries, List.filter_filter]
    simp
  simp only [Admitted.context, templateContext, templateParameters]
  rw [filter_named, hf]

/-- The parameters in the context of a template. -/
theorem context_parameters {engine : Engine} {ctx : Context} (t : Admitted engine ctx)
    {passed : List (String × Value)} (h : (passed.map Prod.fst).Nodup) (n : String) :
    (t.context (namedEntries passed)).parameters.get? (.text n) =
      overlay passed (declaredParameters t.document) ctx.parameters n := by
  have hp : (t.context (namedEntries passed)).parameters =
      ctx.parameters.update ((declaredParameters t.document).update (definedEntries passed)) := by
    simp only [Admitted.context, templateContext, Context.forTemplate, templateParameters]
    rw [filter_named]
  have hd : ((passed.filter fun entry => !entry.2.isUndefined).map Prod.fst).Nodup :=
    h.sublist (List.filter_sublist.map _)
  rw [hp, Entries.get?_update, Entries.get?_update, definedEntries, get?_namedEntries hd,
    lookup_filter h fun v => !v.isUndefined, overlay, Option.or_assoc]

theorem nodup_zip {names : List String} (h : names.Nodup) (values : List Value) :
    ((names.zip values).map Prod.fst).Nodup := by
  induction names generalizing values with
  | nil => exact List.nodup_nil
  | cons n names ih =>
    cases values with
    | nil => exact List.nodup_nil
    | cons v values =>
      rw [List.nodup_cons] at h
      rw [List.zip_cons_cons, List.map_cons, List.nodup_cons]
      refine ⟨fun hm => ?_, ih h.2 values⟩
      obtain ⟨entry, he, rfl⟩ := List.mem_map.1 hm
      exact h.1 (List.of_mem_zip he).1

/-- The values that a section passes under its names. A mapping with an entry for a template passes
nothing but this entry and that for parameters, and a list passes nothing under an empty name. -/
def passedValues (engine : Engine) (keep : Keeper) (ctx : Context) (parameters : Value)
    (said : List (String × Value)) : Run (List (String × Value)) :=
  match parameters.isMapping, said.lookup "template" with
  | true, some template => do
    let template ← ctx.substituteValue template
    let inner := (said.lookup "parameters").getD .undefined
    if inner.isUndefined then return [("template", template)]
    else
      let inner ← keep ctx inner
      return [("template", template), ("parameters", inner)]
  | isMapping, _ => do
    let passed := (said.map Prod.fst).zip (← expandNamed engine keep ctx said)
    return if isMapping then passed else passed.filter fun entry => entry.1 ≠ ""

section Body

variable {said : List (String × Value)} {parameters : Value} {engine : Engine} {keep : Keeper}
  {ctx : Context}

/-- A mapping with an entry for a template is taken for a reference. -/
theorem bodyContext_reference {template : Value} (hn : (said.map Prod.fst).Nodup)
    (h : parameters.pairs? = some (namedEntries said)) (ht : said.lookup "template" = some template)
    (t : Admitted engine ctx) :
    bodyContext engine keep t parameters = (do
      return t.context (namedEntries (← passedValues engine keep ctx parameters said))) := by
  have hu : parameters.isUndefined = false := by
    cases parameters <;> first | rfl | cases h
  have hm : parameters.isMapping = true := by
    rw [Value.isMapping, h]
    rfl
  have hr : parameters.reference? =
      some (template, (said.lookup "parameters").getD .undefined) := by
    have hp (v : Value) (hv : v.pairs? = some (namedEntries said)) : v.reference? =
        some (template, (said.lookup "parameters").getD .undefined) := by
      cases v <;> simp only [Value.pairs?, Option.some.injEq, reduceCtorEq] at hv <;>
        simp [Value.reference?, hv, Entries.getD, get?_namedEntries hn, ht]
    exact hp parameters h
  simp only [bodyContext, given, hu, Bool.false_eq_true, if_false, map_eq_pure_bind, bind_assoc,
    pure_bind, expandValue_kept h hr, preserveReference, passedValues, hm, ht]
  refine bind_congr fun name => ?_
  cases hi : ((said.lookup "parameters").getD .undefined).isUndefined with
  | true => rfl
  | false =>
    simp only [Bool.false_eq_true, if_false, bind_assoc, pure_bind]
    rfl

/-- Other mappings pass the values of all their names. -/
theorem bodyContext_mapping (hn : (said.map Prod.fst).Nodup)
    (hp : ∀ n ∈ said.map Prod.fst, PlainName n) (h : parameters.pairs? = some (namedEntries said))
    (ht : said.lookup "template" = none) (t : Admitted engine ctx) :
    bodyContext engine keep t parameters = (do
      return t.context (namedEntries (← passedValues engine keep ctx parameters said))) := by
  have hu : parameters.isUndefined = false := by
    cases parameters <;> first | rfl | cases h
  have hm : parameters.isMapping = true := by
    rw [Value.isMapping, h]
    rfl
  have hr : parameters.reference? = none := by
    cases parameters <;> simp only [Value.pairs?, Option.some.injEq, reduceCtorEq] at h <;>
      simp [Value.reference?, h, get?_namedEntries hn, ht]
  simp only [bodyContext, given, hu, Bool.false_eq_true, if_false, map_eq_pure_bind, bind_assoc,
    pure_bind, expandValue_entries h fun _ => hr, expandEntries_named hp, passedValues, hm, ht, if_true]
  refine bind_congr fun values => ?_
  have hz : ((((said.map Prod.fst).zip values).filter fun entry =>
      !entry.2.isUndefined).map Prod.fst).Nodup :=
    (nodup_zip hn values).sublist (List.filter_sublist.map _)
  have hg : Entries.update [] (definedEntries ((said.map Prod.fst).zip values)) =
      definedEntries ((said.map Prod.fst).zip values) := ofPairs_named hz
  rw [context_named, hg]
  rfl

/-- A list passes the values of all names that are not empty. -/
theorem bodyContext_list {items : List Value} (hn : (said.map Prod.fst).Nodup)
    (hp : ∀ n ∈ said.map Prod.fst, PlainName n) (h : parameters.items? = some items)
    (hi : List.Forall₂ Passes items said) (t : Admitted engine ctx) :
    bodyContext engine keep t parameters = (do
      return t.context (namedEntries (← passedValues engine keep ctx parameters said))) := by
  have hu : parameters.isUndefined = false := by
    cases parameters <;> first | rfl | cases h
  have hm : parameters.isMapping = false := by
    cases parameters <;> first | rfl | cases h
  obtain ⟨f, hf, hpassed⟩ := expandItems_named engine keep ctx hp hi
  simp only [bodyContext, given, hu, Bool.false_eq_true, if_false, map_eq_pure_bind, bind_assoc,
    pure_bind, expandValue_items h, hf, passedValues, hm]
  refine bind_congr fun values => ?_
  have hz : ((((said.map Prod.fst).zip values).filter fun entry =>
      entry.1 ≠ "").map Prod.fst).Nodup :=
    (nodup_zip hn values).sublist (List.filter_sublist.map _)
  have hg : passedParameters (.list (f values)) =
      namedEntries (((said.map Prod.fst).zip values).filter fun entry => entry.1 ≠ "") := by
    rw [← ofPairs_named hz, ← hpassed]
    rfl
  rw [hg]

theorem passedValues_nodup {passed : List (String × Value)} {s u : Session}
    (hn : (said.map Prod.fst).Nodup)
    (h : (passedValues engine keep ctx parameters said).start s = (.ok passed, u)) :
    (passed.map Prod.fst).Nodup := by
  unfold passedValues at h
  split at h
  · obtain ⟨template, v, -, h⟩ := Run.of_start_bind_ok h
    simp only at h
    split at h
    · cases h
      exact (by decide : ["template"].Nodup)
    · obtain ⟨inner, w, -, h⟩ := Run.of_start_bind_ok h
      cases h
      exact (by decide : ["template", "parameters"].Nodup)
  · obtain ⟨values, v, -, h⟩ := Run.of_start_bind_ok h
    have hz := nodup_zip hn values
    cases h
    split
    · exact hz
    · exact hz.sublist (List.filter_sublist.map _)

end Body

/-- What a reference passes is laid over what the template declares, and that over the parameters of the
caller; a mapping with an entry for a template passes only this entry and that for parameters. -/
theorem parameter_overlay {said : List (String × Value)} {parameters : Value}
    (hn : (said.map Prod.fst).Nodup) (hp : ∀ n ∈ said.map Prod.fst, PlainName n)
    (hs : Says said parameters) (engine : Engine) (keep : Keeper) (ctx : Context) :
    (∀ template, referenceItems engine keep .resolving ctx template parameters = (do
      match ← ctx.substituteValue template with
      | .text s =>
        if Text.isBlankText s then skipReference template
        else do
          let t ← fetch engine ctx (Text.strip s)
          let inner ← bodyContext engine keep t parameters
          templateItems engine keep t inner
      | _ => skipReference template)) ∧
    (∀ t : Admitted engine ctx, bodyContext engine keep t parameters = (do
      return t.context (namedEntries (← passedValues engine keep ctx parameters said)))) ∧
    ∀ s passed u, (passedValues engine keep ctx parameters said).start s = (.ok passed, u) →
      ∀ (t : Admitted engine ctx) (n : String),
        (t.context (namedEntries passed)).parameters.get? (.text n) =
          overlay passed (declaredParameters t.document) ctx.parameters n := by
  refine ⟨fun template => referenceItems_bodyContext engine keep ctx template parameters, fun t => ?_,
    fun s passed u h t n => context_parameters t (passedValues_nodup hn h) n⟩
  rcases hs with h | ⟨h, hi⟩
  · cases ht : said.lookup "template" with
    | some template => exact bodyContext_reference hn h ht t
    | none => exact bodyContext_mapping hn hp h ht t
  · exact bodyContext_list hn hp h hi t

theorem parameter_overlay_single :
    ([("image", Value.text "ubuntu")].map Prod.fst).Nodup ∧
    (∀ n ∈ [("image", Value.text "ubuntu")].map Prod.fst, PlainName n) ∧
    Says [("image", .text "ubuntu")]
      (.list [.map [(.text "name", .text "image"), (.text "value", .text "ubuntu")]]) ∧
    ∀ t : Admitted {} { directory := "/" },
      (t.context (namedEntries [("image", .text "ubuntu")])).parameters.get? (.text "image") =
        some (.text "ubuntu") := by
  have hn : ([("image", Value.text "ubuntu")].map Prod.fst).Nodup := by decide
  have hp : ∀ n ∈ [("image", Value.text "ubuntu")].map Prod.fst, PlainName n := by
    intro n hn
    obtain rfl := List.mem_singleton.1 hn
    exact ⟨by decide, by decide⟩
  have hs : Says [("image", .text "ubuntu")]
      (.list [.map [(.text "name", .text "image"), (.text "value", .text "ubuntu")]]) :=
    .list rfl (.cons (.nameFirst rfl) .nil)
  have hv : passedValues {} (fun _ v => pure v) { directory := "/" }
      (.list [.map [(.text "name", .text "image"), (.text "value", .text "ubuntu")]])
      [("image", .text "ubuntu")] = pure [("image", .text "ubuntu")] := by
    have he : expandNamed {} (fun _ v => pure v) { directory := "/" }
        [("image", .text "ubuntu")] = pure [.text "ubuntu"] := by
      rw [expandNamed_cons, expandValue_text (by decide)]
      rfl
    simp only [passedValues, he, pure_bind]
    rfl
  refine ⟨hn, hp, hs, fun t => ?_⟩
  exact (parameter_overlay hn hp hs {} (fun _ v => pure v) { directory := "/" }).2.2 {} _ {}
    (by rw [hv, Run.start_pure]) t "image"

end Expansion

end PipelineTemplate
