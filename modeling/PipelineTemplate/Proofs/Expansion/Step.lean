import PipelineTemplate.Expansion
import PipelineTemplate.Proofs.Directive

/-!
# The steps of an expansion

What the rules of expansion do with a value, with the head of a sequence and with the first pair of a
mapping, by what stands there: a reference, a loop, a branch of a condition, an insertion, or anything
else.
-/

namespace PipelineTemplate.Expansion

variable {engine : Engine} {keep : Keeper} {mode : Mode} {ctx : Context} {taken : Bool}

section Parts

theorem text_of_text? {v : Value} {s : String} (h : v.text? = some s) : v = .text s := by
  cases v <;> simp_all [Value.text?]

theorem sizeOf_items {node : Value} {items : List Value} (h : node.items? = some items) :
    sizeOf items < sizeOf node := by
  cases node <;> simp only [Value.items?, Option.some.injEq, reduceCtorEq] at h
  all_goals
    subst h
    simp only [Value.list.sizeOf_spec, Value.tuple.sizeOf_spec, Value.aliased.sizeOf_spec]
    omega

theorem sizeOf_pairs {node : Value} {entries : Entries} (h : node.pairs? = some entries) :
    sizeOf entries < sizeOf node := by
  cases node <;> simp only [Value.pairs?, Option.some.injEq, reduceCtorEq] at h
  all_goals
    subst h
    simp only [Value.map.sizeOf_spec, Value.pairs.sizeOf_spec]
    omega

theorem reference_of_pairs {node : Value} {r : Value × Value} (hp : node.pairs? = none)
    (hr : node.reference? = some r) : node = .reference r.1 r.2 := by
  cases node <;> simp_all [Value.pairs?, Value.reference?]
  subst hr
  simp

end Parts

/-- A directive that is a branch of a condition. -/
def Branch (d : Directive) : Prop := d = .otherwise ∨ ∃ c, d = .ifTrue c ∨ d = .elseIf c

section Values

theorem expandValue_items {node : Value} {items : List Value} (h : node.items? = some items) :
    expandValue engine keep mode ctx node = (do
      return .list (← expandItems engine keep mode ctx false items)) := by
  cases node <;> simp only [Value.items?, Option.some.injEq, reduceCtorEq] at h
  all_goals
    subst h
    rw [expandValue]

theorem expandValue_reference {template parameters : Value} :
    expandValue engine keep mode ctx (.reference template parameters) =
      referenceItems engine keep mode ctx template parameters := by
  rw [expandValue]

/-- A mapping that is a reference to a template is kept while templates are preserved. -/
theorem expandValue_kept {node template parameters : Value} {entries : Entries}
    (h : node.pairs? = some entries) (hr : node.reference? = some (template, parameters)) :
    expandValue engine keep .preserving ctx node = preserveReference keep ctx template parameters := by
  cases node <;> simp only [Value.pairs?, Option.some.injEq, reduceCtorEq] at h
  all_goals
    rw [expandValue]
    simp only [hr]

theorem expandValue_entries {node : Value} {entries : Entries} (h : node.pairs? = some entries)
    (hr : mode = .preserving → node.reference? = none) :
    expandValue engine keep mode ctx node = (do
      return .map (← expandEntries engine keep mode ctx false [] entries)) := by
  cases node <;> simp only [Value.pairs?, Option.some.injEq, reduceCtorEq] at h
  all_goals
    subst h
    rw [expandValue]
    intro template parameters hm hs
    rw [hr hm] at hs
    cases hs

theorem expandValue_scalar {node : Value} (hi : node.items? = none) (hp : node.pairs? = none)
    (hr : node.reference? = none) :
    expandValue engine keep mode ctx node = expandScalar engine keep mode ctx node := by
  cases node <;> simp [Value.items?, Value.pairs?, Value.reference?] at hi hp hr <;> rw [expandValue] <;>
    simp

end Values

section Items

variable {item : Value} {rest : List Value}

theorem expandItems_nil : expandItems engine keep mode ctx taken [] = pure [] := by
  rw [expandItems]

theorem expandItems_reference {template parameters : Value}
    (h : item.reference? = some (template, parameters)) :
    expandItems engine keep mode ctx taken (item :: rest) = (do
      let here ← referenceItems engine keep mode ctx template parameters
      return (here.list?.getD []) ++ (← expandItems engine keep mode ctx false rest)) := by
  rw [expandItems, h]

/-- An iteration of a loop in a sequence. -/
def itemStep (engine : Engine) (keep : Keeper) (mode : Mode) (ctx : Context) (name : String)
    (body : Value) (element : Value × Nat) : Run (List Value) := do
  Run.pass (.entered (iteration ctx name element))
  branchItems engine keep mode (iteration ctx name element) body

theorem expandItems_each {name collection : String} {body : Value} (hr : item.reference? = none)
    (h : directiveItem? item = some (.each name collection, body)) :
    expandItems engine keep mode ctx taken (item :: rest) = (do
      let elements ← loopElements ctx collection
      let here ← elements.mapM fun element => do
        Run.pass (.entered (iteration ctx name element))
        branchItems engine keep mode (iteration ctx name element) body
      return here.flatten ++ (← expandItems engine keep mode ctx false rest)) := by
  simp only [expandItems, hr]
  split <;> simp_all

theorem expandItems_malformed {body : Value} (hr : item.reference? = none)
    (h : directiveItem? item = some (.malformedEach, body)) :
    expandItems engine keep mode ctx taken (item :: rest) = (do
      reportMalformedLoop
      expandItems engine keep mode ctx false rest) := by
  simp only [expandItems, hr]
  split <;> simp_all

theorem expandItems_branch {d : Directive} {body : Value} (hd : Branch d)
    (hr : item.reference? = none) (h : directiveItem? item = some (d, body)) :
    expandItems engine keep mode ctx taken (item :: rest) =
      if taken then expandItems engine keep mode ctx (decide (d ≠ .otherwise)) rest
      else (do
        if ← holds ctx d then
          let here ← if body.isNull then pure [] else branchItems engine keep mode ctx body
          return here ++ (← expandItems engine keep mode ctx (decide (d ≠ .otherwise)) rest)
        else expandItems engine keep mode ctx false rest) := by
  simp only [expandItems, hr]
  obtain rfl | ⟨c, rfl | rfl⟩ := hd
  all_goals split <;> simp_all

/-- What the body of a branch that is taken gives to a sequence; an empty one gives nothing. -/
def takenItems (engine : Engine) (keep : Keeper) (mode : Mode) (ctx : Context) (body : Value) :
    Run (List Value) :=
  if body.isNull then pure [] else branchItems engine keep mode ctx body

/-- A branch is skipped after one that was taken in the same run. -/
theorem expandItems_skipped {d : Directive} {body : Value} (hd : Branch d) (hr : item.reference? = none)
    (h : directiveItem? item = some (d, body)) :
    expandItems engine keep mode ctx true (item :: rest) =
      expandItems engine keep mode ctx (decide (d ≠ .otherwise)) rest := by
  rw [expandItems_branch hd hr h, if_pos rfl]

/-- A branch is taken if its condition holds. -/
theorem expandItems_choice {d : Directive} {body : Value} (hd : Branch d) (hr : item.reference? = none)
    (h : directiveItem? item = some (d, body)) :
    expandItems engine keep mode ctx false (item :: rest) = (do
      let held ← holds ctx d
      if held then
        let here ← takenItems engine keep mode ctx body
        return here ++ (← expandItems engine keep mode ctx (decide (d ≠ .otherwise)) rest)
      else expandItems engine keep mode ctx false rest) := by
  rw [expandItems_branch hd hr h, if_neg Bool.false_ne_true]
  refine bind_congr fun held => ?_
  cases held with
  | false => rfl
  | true =>
    unfold takenItems
    cases body.isNull <;> rfl

/-- What is no reference and starts no loop or branch is expanded for itself. -/
theorem expandItems_plain (hr : item.reference? = none)
    (h : ∀ d body, directiveItem? item = some (d, body) → d = .insert) :
    expandItems engine keep mode ctx taken (item :: rest) = (do
      match ← expandValue engine keep mode ctx item with
      | .undefined => expandItems engine keep mode ctx false rest
      | .list parts | .aliased parts _ =>
        let here ← splice engine keep mode ctx parts
        return here ++ (← expandItems engine keep mode ctx false rest)
      | v => return v :: (← expandItems engine keep mode ctx false rest)) := by
  simp only [expandItems, hr]
  split
  · rename_i hd
    cases h _ _ hd
  · rename_i hd
    cases h _ _ hd
  · rfl
  · rfl
  · rename_i hi hd
    exact absurd (h _ _ hd) hi

theorem branchItems_items {body : Value} {items : List Value} (h : body.items? = some items) :
    branchItems engine keep mode ctx body = expandItems engine keep mode ctx false items := by
  cases body <;> simp only [Value.items?, Option.some.injEq, reduceCtorEq] at h
  all_goals
    subst h
    rw [branchItems]

theorem branchItems_reference {body template parameters : Value}
    (h : body.reference? = some (template, parameters)) :
    branchItems engine keep mode ctx body = (do
      return ((← referenceItems engine keep mode ctx template parameters).list?).getD []) := by
  cases body <;> simp only [Value.reference?, reduceCtorEq] at h <;> rw [branchItems] <;>
    simp [Value.reference?, h]

theorem branchItems_plain {body : Value} (hi : body.items? = none) (hr : body.reference? = none) :
    branchItems engine keep mode ctx body = (do
      match ← expandValue engine keep mode ctx body with
      | .undefined => return []
      | v => return [v]) := by
  cases body <;> simp only [Value.items?, reduceCtorEq] at hi <;> simp only [branchItems, hr] <;> rfl

end Items

section Pairs

variable {key value : Value} {before rest : Entries}

theorem expandEntries_nil : expandEntries engine keep mode ctx taken before [] = pure before := by
  rw [expandEntries]

/-- An iteration of a loop in a mapping. -/
def entryStep (engine : Engine) (keep : Keeper) (mode : Mode) (ctx : Context) (name : String)
    (body : Value) (merged : Entries) (element : Value × Nat) : Run Entries := do
  Run.pass (.entered (iteration ctx name element))
  let branch ← branchEntries engine keep mode (iteration ctx name element) body
  mergeIteration (iteration ctx name element) name merged branch

theorem expandEntries_each {name collection : String}
    (h : Directive.ofKey? key = some (.each name collection)) :
    expandEntries engine keep mode ctx taken before ((key, value) :: rest) = (do
      let elements ← loopElements ctx collection
      let merged ← elements.foldlM (fun merged element => do
        Run.pass (.entered (iteration ctx name element))
        let branch ← branchEntries engine keep mode (iteration ctx name element) value
        mergeIteration (iteration ctx name element) name merged branch) []
      expandEntries engine keep mode ctx false (before.update merged) rest) := by
  simp only [expandEntries, h]

theorem expandEntries_malformed (h : Directive.ofKey? key = some .malformedEach) :
    expandEntries engine keep mode ctx taken before ((key, value) :: rest) = (do
      reportMalformedLoop
      expandEntries engine keep mode ctx false before rest) := by
  simp only [expandEntries, h]

theorem expandEntries_insert (h : Directive.ofKey? key = some .insert) :
    expandEntries engine keep mode ctx taken before ((key, value) :: rest) = (do
      let inserted ← expandValue engine keep .preserving ctx value
      expandEntries engine keep mode ctx false (before.update ((inserted.entries?).getD [])) rest) := by
  simp only [expandEntries, h]

theorem expandEntries_branch {d : Directive} (hd : Branch d) (h : Directive.ofKey? key = some d) :
    expandEntries engine keep mode ctx taken before ((key, value) :: rest) =
      if taken then expandEntries engine keep mode ctx (decide (d ≠ .otherwise)) before rest
      else (do
        if ← holds ctx d then
          let here ← if value.isNull then pure [] else branchEntries engine keep mode ctx value
          expandEntries engine keep mode ctx (decide (d ≠ .otherwise)) (before.update here) rest
        else expandEntries engine keep mode ctx false before rest) := by
  obtain rfl | ⟨c, rfl | rfl⟩ := hd <;> simp only [expandEntries, h]

/-- What the body of a branch that is taken gives to a mapping; an empty one gives nothing. -/
def takenEntries (engine : Engine) (keep : Keeper) (mode : Mode) (ctx : Context) (body : Value) :
    Run Entries :=
  if body.isNull then pure [] else branchEntries engine keep mode ctx body

theorem expandEntries_skipped {d : Directive} (hd : Branch d) (h : Directive.ofKey? key = some d) :
    expandEntries engine keep mode ctx true before ((key, value) :: rest) =
      expandEntries engine keep mode ctx (decide (d ≠ .otherwise)) before rest := by
  rw [expandEntries_branch hd h, if_pos rfl]

theorem expandEntries_choice {d : Directive} (hd : Branch d) (h : Directive.ofKey? key = some d) :
    expandEntries engine keep mode ctx false before ((key, value) :: rest) = (do
      let held ← holds ctx d
      if held then
        let here ← takenEntries engine keep mode ctx value
        expandEntries engine keep mode ctx (decide (d ≠ .otherwise)) (before.update here) rest
      else expandEntries engine keep mode ctx false before rest) := by
  rw [expandEntries_branch hd h, if_neg Bool.false_ne_true]
  refine bind_congr fun held => ?_
  cases held with
  | false => rfl
  | true =>
    unfold takenEntries
    cases value.isNull <;> rfl

/-- An entry whose key is no directive; one with an undefined value is left out. -/
theorem expandEntries_plain (h : Directive.ofKey? key = none) :
    expandEntries engine keep mode ctx taken before ((key, value) :: rest) = (do
      match ← expandValue engine keep mode ctx value with
      | .undefined => expandEntries engine keep mode ctx false before rest
      | v =>
        let key ← ctx.substituteValue key
        expandEntries engine keep mode ctx false (before.insert key v) rest) := by
  simp only [expandEntries, h] <;> rfl

theorem branchEntries_items {body : Value} {items : List Value} (h : body.items? = some items) :
    branchEntries engine keep mode ctx body = (do
      let items ← expandItems engine keep mode ctx false items
      return items.foldl (fun merged item => merged.update ((item.entries?).getD [])) []) := by
  cases body <;> simp only [Value.items?, Option.some.injEq, reduceCtorEq] at h
  all_goals
    subst h
    rw [branchEntries]

theorem branchEntries_pairs {body : Value} {entries : Entries} (h : body.pairs? = some entries) :
    branchEntries engine keep mode ctx body = expandEntries engine keep mode ctx false [] entries := by
  cases body <;> simp only [Value.pairs?, Option.some.injEq, reduceCtorEq] at h
  all_goals
    subst h
    rw [branchEntries]

theorem branchEntries_scalar {body : Value} (hi : body.items? = none) (hp : body.pairs? = none) :
    branchEntries engine keep mode ctx body = (do
      match ← expandScalar engine keep mode ctx body with
      | .undefined => return []
      | v => return [(.text "value", v)]) := by
  cases body <;> simp only [Value.items?, Value.pairs?, reduceCtorEq] at hi hp <;>
    simp only [branchEntries] <;> rfl

end Pairs

section Scalars

/-- A text without expressions stays as it is. -/
theorem substitute_plain {s : String} (h : PlainText s) : ctx.substitute s = pure s := by
  unfold PlainText at h
  simp only [Context.substitute, h]
  rfl

theorem substituteValue_plain {s : String} (h : PlainText s) :
    ctx.substituteValue (.text s) = pure (.text s) := by
  rw [Context.substituteValue, substitute_plain h]
  rfl

/-- What becomes of the value of an expression that is a whole text. -/
def expandResult (engine : Engine) (keep : Keeper) (mode : Mode) (ctx : Context) (result : Value) :
    Run Value :=
  match result.reference?, mode with
  | some (template, parameters), .preserving => preserveReference keep ctx template parameters
  | some (template, parameters), .resolving => do
    let items ← referenceItems engine keep .resolving ctx template parameters
    match items.list? with
    | some [item] => return item
    | _ => return items
  | none, .preserving => return result
  | none, .resolving =>
    match result.list? with
    | none => return result
    | some items =>
      if items.any (·.reference?.isSome) then return .list (← splice engine keep .resolving ctx items)
      else return result

theorem expandScalar_whole {s : String} (h : isWholeExpression (Text.strip s) = true) :
    expandScalar engine keep mode ctx (.text s) = (do
      let result ← ctx.evaluateText (expressionBody (Text.strip s))
      expandResult engine keep mode ctx result) := by
  simp only [expandScalar, h]
  rfl

theorem expandScalar_partial {s : String} (h : isWholeExpression (Text.strip s) = false) :
    expandScalar engine keep mode ctx (.text s) = (do return .text (← ctx.substitute s)) := by
  simp [expandScalar, h]

theorem expandScalar_plain {s : String} (h : PlainText s) :
    expandScalar engine keep mode ctx (.text s) = pure (.text s) := by
  rw [expandScalar_partial h.not_isWholeExpression, substitute_plain h]
  rfl

theorem expandValue_text {s : String} (h : PlainText s) :
    expandValue engine keep mode ctx (.text s) = pure (.text s) := by
  rw [expandValue_scalar rfl rfl rfl, expandScalar_plain h]

theorem expandScalar_other {v : Value} (h : v.text? = none) :
    expandScalar engine keep mode ctx v = pure v := by
  cases v <;> simp only [Value.text?, reduceCtorEq] at h <;> simp only [expandScalar]

end Scalars

section References

variable {template parameters : Value}

theorem referenceItems_preserving :
    referenceItems engine keep .preserving ctx template parameters = (do
      return .list [← preserveReference keep ctx template parameters]) := by
  rw [referenceItems]

/-- The parameters that a reference passes. -/
def given (engine : Engine) (keep : Keeper) (ctx : Context) (parameters : Value) : Run Entries :=
  if parameters.isUndefined then pure []
  else passedParameters <$> expandValue engine keep .preserving ctx parameters

/-- The items that the body of a template gives in a context. -/
def templateItems (engine : Engine) (keep : Keeper) {ctx : Context} (t : Admitted engine ctx)
    (inner : Context) : Run Value := do
  Run.pass (.entered inner)
  Run.report .debug .expansion "template_expanding"
    [("template", .text t.located.reference), ("path", .text t.located.path), ("depth", .int inner.depth)]
  return Template.contribution
    (← expandValue engine keep .resolving inner (withoutParameters t.document))

theorem referenceItems_resolving :
    referenceItems engine keep .resolving ctx template parameters = (do
      match ← ctx.substituteValue template with
      | .text s =>
        if Text.isBlankText s then skipReference template
        else do
          let t ← fetch engine ctx (Text.strip s)
          let given ← given engine keep ctx parameters
          templateItems engine keep t (t.context given)
      | _ => skipReference template) := by
  rw [referenceItems]
  refine bind_congr fun name => ?_
  cases name with
  | text s =>
    simp only
    by_cases hb : Text.isBlankText s
    · simp only [hb, if_true]
    · simp only [hb, Bool.false_eq_true, if_false]
      refine bind_congr fun t => ?_
      cases hu : parameters.isUndefined with
      | true =>
        simp only [given, hu, if_true]
        rfl
      | false =>
        simp only [given, hu, Bool.false_eq_true, if_false]
        rfl
  | _ => rfl

end References

end PipelineTemplate.Expansion
