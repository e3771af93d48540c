import PipelineTemplate.Proofs.Expansion.Branching
import PipelineTemplate.Proofs.Run.Start

/-!
# Documents that are alike where an expansion looks

Two documents may differ in the bodies of branches that are not taken, and in the conditions of branches
after the one of their run that is taken. The relation follows the expansion of the first document from a
session, as it depends on the session which branches are taken. Such documents have the same outcome.
-/

namespace PipelineTemplate.Expansion

/-- What the rules of expansion are applied to. -/
inductive Part where
  | value (node : Value)
  /-- The parameters that a reference passes to a template. -/
  | parameters (template passed : Value)
  /-- The items of a sequence; the flag tells whether a branch of the current run has been taken. -/
  | items (taken : Bool) (items : List Value)
  /-- An item that is no branch. -/
  | item (item : Value)
  | itemBody (body : Value)
  /-- A loop in a sequence over the elements that are left. -/
  | itemLoop (name : String) (elements : List (Value × Nat)) (body : Value)
  /-- The entries of a mapping; the flag tells whether a branch of the current run has been taken. -/
  | entries (taken : Bool) (pairs : Entries)
  /-- An entry that is no branch. -/
  | entry (key value : Value)
  | entryBody (body : Value)
  /-- A loop in a mapping over the elements that are left, after the entries of those before. -/
  | entryLoop (name : String) (elements : List (Value × Nat)) (merged : Entries) (body : Value)

/-- Two parts differ only where the expansion of the first one from a session does not look: in bodies of
branches that are not taken, and in conditions of branches after the one that is taken. So many references
may be kept one inside the other. -/
inductive Alike (engine : Engine) : Nat → Mode → Context → Session → Part → Part → Prop where
  | same {n mode ctx s} (part : Part) : Alike engine n mode ctx s part part
  -- Values
  | ofItems {n mode ctx s v w xs ys} (hv : v.items? = some xs) (hw : w.items? = some ys)
      (h : Alike engine n mode ctx s (.items false xs) (.items false ys)) :
      Alike engine n mode ctx s (.value v) (.value w)
  | ofEntries {n mode ctx s v w ps qs} (hv : v.pairs? = some ps) (hw : w.pairs? = some qs)
      (hr : mode = .preserving → v.reference? = none ∧ w.reference? = none)
      (h : Alike engine n mode ctx s (.entries false ps) (.entries false qs)) :
      Alike engine n mode ctx s (.value v) (.value w)
  | ofKept {n ctx s v w ps qs template p q} (hv : v.pairs? = some ps) (hw : w.pairs? = some qs)
      (hp : v.reference? = some (template, p)) (hq : w.reference? = some (template, q))
      (h : Alike engine n .preserving ctx s (.parameters template p) (.parameters template q)) :
      Alike engine n .preserving ctx s (.value v) (.value w)
  | ofReference {n mode ctx s template p q}
      (h : Alike engine n mode ctx s (.parameters template p) (.parameters template q)) :
      Alike engine n mode ctx s (.value (.reference template p)) (.value (.reference template q))
  -- Parameters
  | kept {n ctx s template p q} (hu : p.isUndefined = q.isUndefined)
      (h : ∀ name t, (ctx.substituteValue template).start s = (.ok name, t) →
        Alike engine n .preserving ctx t (.value p) (.value q)) :
      Alike engine (n + 1) .preserving ctx s (.parameters template p) (.parameters template q)
  | beyond {ctx s template p q} (hu : p.isUndefined = q.isUndefined) :
      Alike engine 0 .preserving ctx s (.parameters template p) (.parameters template q)
  | passed {n ctx s template p q} (hu : p.isUndefined = q.isUndefined)
      (h : ∀ text t a u, (ctx.substituteValue template).start s = (.ok (.text text), t) →
        (fetch engine ctx (Text.strip text)).start t = (.ok a, u) →
        Alike engine n .preserving ctx u (.value p) (.value q)) :
      Alike engine n .resolving ctx s (.parameters template p) (.parameters template q)
  -- Items
  | skippedItem {n mode ctx s item item' d d' body body' rest rest'}
      (hi : directiveItem? item = some (d, body)) (hi' : directiveItem? item' = some (d', body'))
      (hd : Branch d) (hd' : Branch d') (ho : d = .otherwise ↔ d' = .otherwise)
      (h : Alike engine n mode ctx s (.items (decide (d ≠ .otherwise)) rest)
        (.items (decide (d ≠ .otherwise)) rest')) :
      Alike engine n mode ctx s (.items true (item :: rest)) (.items true (item' :: rest'))
  | branchItem {n mode ctx s item item' d body body' rest rest'}
      (hi : directiveItem? item = some (d, body)) (hi' : directiveItem? item' = some (d, body'))
      (hd : Branch d)
      (missed : ∀ t, (holds ctx d).start s = (.ok false, t) →
        Alike engine n mode ctx t (.items false rest) (.items false rest'))
      (taken : ∀ t, (holds ctx d).start s = (.ok true, t) →
        Alike engine n mode ctx t (.itemBody body) (.itemBody body'))
      (after : ∀ t here u, (holds ctx d).start s = (.ok true, t) →
        (takenItems engine (keepWithin engine n) mode ctx body).start t = (.ok here, u) →
        Alike engine n mode ctx u (.items (decide (d ≠ .otherwise)) rest)
          (.items (decide (d ≠ .otherwise)) rest')) :
      Alike engine n mode ctx s (.items false (item :: rest)) (.items false (item' :: rest'))
  | nextItem {n mode ctx s taken item item' rest rest'} (hi : itemBranch? item = none)
      (hi' : itemBranch? item' = none) (h : Alike engine n mode ctx s (.item item) (.item item'))
      (after : ∀ here t,
        (expandItems engine (keepWithin engine n) mode ctx false [item]).start s = (.ok here, t) →
        Alike engine n mode ctx t (.items false rest) (.items false rest')) :
      Alike engine n mode ctx s (.items taken (item :: rest)) (.items taken (item' :: rest'))
  | itemReference {n mode ctx s item item' template p q} (hp : item.reference? = some (template, p))
      (hq : item'.reference? = some (template, q))
      (h : Alike engine n mode ctx s (.parameters template p) (.parameters template q)) :
      Alike engine n mode ctx s (.item item) (.item item')
  | itemEach {n mode ctx s item item' name collection body body'}
      (hi : directiveItem? item = some (.each name collection, body))
      (hi' : directiveItem? item' = some (.each name collection, body'))
      (h : ∀ elements t, (loopElements ctx collection).start s = (.ok elements, t) →
        Alike engine n mode ctx t (.itemLoop name elements body) (.itemLoop name elements body')) :
      Alike engine n mode ctx s (.item item) (.item item')
  | itemValue {n mode ctx s item item'} (hr : item.reference? = none) (hr' : item'.reference? = none)
      (hd : ∀ d body, directiveItem? item = some (d, body) → d = .insert)
      (hd' : ∀ d body, directiveItem? item' = some (d, body) → d = .insert)
      (h : Alike engine n mode ctx s (.value item) (.value item')) :
      Alike engine n mode ctx s (.item item) (.item item')
  | itemBodyItems {n mode ctx s body body' xs ys} (hb : body.items? = some xs)
      (hb' : body'.items? = some ys)
      (h : Alike engine n mode ctx s (.items false xs) (.items false ys)) :
      Alike engine n mode ctx s (.itemBody body) (.itemBody body')
  | itemBodyReference {n mode ctx s body body' template p q} (hp : body.reference? = some (template, p))
      (hq : body'.reference? = some (template, q))
      (h : Alike engine n mode ctx s (.parameters template p) (.parameters template q)) :
      Alike engine n mode ctx s (.itemBody body) (.itemBody body')
  | itemBodyValue {n mode ctx s body body'} (hi : body.items? = none) (hi' : body'.items? = none)
      (hr : body.reference? = none) (hr' : body'.reference? = none)
      (h : Alike engine n mode ctx s (.value body) (.value body')) :
      Alike engine n mode ctx s (.itemBody body) (.itemBody body')
  | itemIteration {n mode ctx s name element elements body body'}
      (h : ∀ t, (Run.pass (.entered (iteration ctx name element))).start s = (.ok (), t) →
        Alike engine n mode (iteration ctx name element) t (.itemBody body) (.itemBody body'))
      (after : ∀ here t,
        (itemStep engine (keepWithin engine n) mode ctx name body element).start s = (.ok here, t) →
        Alike engine n mode ctx t (.itemLoop name elements body) (.itemLoop name elements body')) :
      Alike engine n mode ctx s (.itemLoop name (element :: elements) body)
        (.itemLoop name (element :: elements) body')
  -- Entries
  | skippedEntry {n mode ctx s key key' d d' value value' rest rest'}
      (hk : Directive.ofKey? key = some d) (hk' : Directive.ofKey? key' = some d')
      (hd : Branch d) (hd' : Branch d') (ho : d = .otherwise ↔ d' = .otherwise)
      (h : Alike engine n mode ctx s (.entries (decide (d ≠ .otherwise)) rest)
        (.entries (decide (d ≠ .otherwise)) rest')) :
      Alike engine n mode ctx s (.entries true ((key, value) :: rest))
        (.entries true ((key', value') :: rest'))
  | branchEntry {n mode ctx s key key' d value value' rest rest'}
      (hk : Directive.ofKey? key = some d) (hk' : Directive.ofKey? key' = some d) (hd : Branch d)
      (missed : ∀ t, (holds ctx d).start s = (.ok false, t) →
        Alike engine n mode ctx t (.entries false rest) (.entries false rest'))
      (taken : ∀ t, (holds ctx d).start s = (.ok true, t) →
        Alike engine n mode ctx t (.entryBody value) (.entryBody value'))
      (after : ∀ t here u, (holds ctx d).start s = (.ok true, t) →
        (takenEntries engine (keepWithin engine n) mode ctx value).start t = (.ok here, u) →
        Alike engine n mode ctx u (.entries (decide (d ≠ .otherwise)) rest)
          (.entries (decide (d ≠ .otherwise)) rest')) :
      Alike engine n mode ctx s (.entries false ((key, value) :: rest))
        (.entries false ((key', value') :: rest'))
  | nextEntry {n mode ctx s taken key value value' rest rest'}
      (hk : branch? (Directive.ofKey? key) = none)
      (h : Alike engine n mode ctx s (.entry key value) (.entry key value'))
      (after : ∀ here t,
        (expandEntries engine (keepWithin engine n) mode ctx false [] [(key, value)]).start s =
          (.ok here, t) →
        Alike engine n mode ctx t (.entries false rest) (.entries false rest')) :
      Alike engine n mode ctx s (.entries taken ((key, value) :: rest))
        (.entries taken ((key, value') :: rest'))
  | entryEach {n mode ctx s key name collection value value'}
      (hk : Directive.ofKey? key = some (.each name collection))
      (h : ∀ elements t, (loopElements ctx collection).start s = (.ok elements, t) →
        Alike engine n mode ctx t (.entryLoop name elements [] value)
          (.entryLoop name elements [] value')) :
      Alike engine n mode ctx s (.entry key value) (.entry key value')
  | entryInsert {n mode ctx s key value value'} (hk : Directive.ofKey? key = some .insert)
      (h : Alike engine n .preserving ctx s (.value value) (.value value')) :
      Alike engine n mode ctx s (.entry key value) (.entry key value')
  | entryValue {n mode ctx s key value value'} (hk : Directive.ofKey? key = none)
      (h : Alike engine n mode ctx s (.value value) (.value value')) :
      Alike engine n mode ctx s (.entry key value) (.entry key value')
  | entryBodyItems {n mode ctx s body body' xs ys} (hb : body.items? = some xs)
      (hb' : body'.items? = some ys)
      (h : Alike engine n mode ctx s (.items false xs) (.items false ys)) :
      Alike engine n mode ctx s (.entryBody body) (.entryBody body')
  | entryBodyPairs {n mode ctx s body body' ps qs} (hb : body.pairs? = some ps)
      (hb' : body'.pairs? = some qs)
      (h : Alike engine n mode ctx s (.entries false ps) (.entries false qs)) :
      Alike engine n mode ctx s (.entryBody body) (.entryBody body')
  | entryIteration {n mode ctx s name element elements merged body body'}
      (h : ∀ t, (Run.pass (.entered (iteration ctx name element))).start s = (.ok (), t) →
        Alike engine n mode (iteration ctx name element) t (.entryBody body) (.entryBody body'))
      (after : ∀ more t,
        (entryStep engine (keepWithin engine n) mode ctx name body merged element).start s =
          (.ok more, t) →
        Alike engine n mode ctx t (.entryLoop name elements more body)
          (.entryLoop name elements more body')) :
      Alike engine n mode ctx s (.entryLoop name (element :: elements) merged body)
        (.entryLoop name (element :: elements) merged body')

/-- Two parts have the same outcome in a session. -/
def SameOutcome (engine : Engine) (n : Nat) (mode : Mode) (ctx : Context) (s : Session) :
    Part → Part → Prop
  | .value v, .value w =>
    (expandValue engine (keepWithin engine n) mode ctx v).start s =
      (expandValue engine (keepWithin engine n) mode ctx w).start s
  | .parameters template p, .parameters template' q =>
    (referenceItems engine (keepWithin engine n) mode ctx template p).start s =
        (referenceItems engine (keepWithin engine n) mode ctx template' q).start s ∧
      (mode = .preserving → (preserveReference (keepWithin engine n) ctx template p).start s =
        (preserveReference (keepWithin engine n) ctx template' q).start s)
  | .items taken xs, .items taken' ys =>
    (expandItems engine (keepWithin engine n) mode ctx taken xs).start s =
      (expandItems engine (keepWithin engine n) mode ctx taken' ys).start s
  | .item x, .item y =>
    (expandItems engine (keepWithin engine n) mode ctx false [x]).start s =
      (expandItems engine (keepWithin engine n) mode ctx false [y]).start s
  | .itemBody v, .itemBody w =>
    (branchItems engine (keepWithin engine n) mode ctx v).start s =
        (branchItems engine (keepWithin engine n) mode ctx w).start s ∧
      (takenItems engine (keepWithin engine n) mode ctx v).start s =
        (takenItems engine (keepWithin engine n) mode ctx w).start s
  | .itemLoop name es v, .itemLoop name' es' w =>
    (es.mapM (itemStep engine (keepWithin engine n) mode ctx name v)).start s =
      (es'.mapM (itemStep engine (keepWithin engine n) mode ctx name' w)).start s
  | .entries taken ps, .entries taken' qs =>
    ∀ before, (expandEntries engine (keepWithin engine n) mode ctx taken before ps).start s =
      (expandEntries engine (keepWithin engine n) mode ctx taken' before qs).start s
  | .entry k v, .entry l w =>
    (expandEntries engine (keepWithin engine n) mode ctx false [] [(k, v)]).start s =
      (expandEntries engine (keepWithin engine n) mode ctx false [] [(l, w)]).start s
  | .entryBody v, .entryBody w =>
    (branchEntries engine (keepWithin engine n) mode ctx v).start s =
        (branchEntries engine (keepWithin engine n) mode ctx w).start s ∧
      (takenEntries engine (keepWithin engine n) mode ctx v).start s =
        (takenEntries engine (keepWithin engine n) mode ctx w).start s
  | .entryLoop name es merged v, .entryLoop name' es' merged' w =>
    (es.foldlM (entryStep engine (keepWithin engine n) mode ctx name v) merged).start s =
      (es'.foldlM (entryStep engine (keepWithin engine n) mode ctx name' w) merged').start s
  | _, _ => False

theorem SameOutcome.refl (engine : Engine) (n : Nat) (mode : Mode) (ctx : Context) (s : Session)
    (part : Part) : SameOutcome engine n mode ctx s part part := by
  cases part <;> simp only [SameOutcome, implies_true, and_self]

section Steps

variable {engine : Engine} {n : Nat} {mode : Mode} {ctx : Context} {s : Session}

theorem isNull_of_items? {v : Value} {xs : List Value} (h : v.items? = some xs) : v.isNull = false := by
  cases v <;> first | rfl | cases h

theorem isNull_of_pairs? {v : Value} {ps : Entries} (h : v.pairs? = some ps) : v.isNull = false := by
  cases v <;> first | rfl | cases h

theorem isNull_of_reference? {v : Value} {r : Value × Value} (h : v.reference? = some r) :
    v.isNull = false := by
  cases v <;> first | rfl | cases h

/-- Values that are alike are both empty or both not. -/
theorem Alike.isNull_eq {v w : Value} (h : Alike engine n mode ctx s (.value v) (.value w)) :
    v.isNull = w.isNull := by
  cases h with
  | same => rfl
  | ofItems hv hw => rw [isNull_of_items? hv, isNull_of_items? hw]
  | ofEntries hv hw => rw [isNull_of_pairs? hv, isNull_of_pairs? hw]
  | ofKept hv hw => rw [isNull_of_pairs? hv, isNull_of_pairs? hw]
  | ofReference => rfl

/-- Bodies that are both empty or both not have the same outcome also as bodies of a branch that is taken. -/
theorem sameOutcome_itemBody {v w : Value} (hn : v.isNull = w.isNull)
    (h : (branchItems engine (keepWithin engine n) mode ctx v).start s =
      (branchItems engine (keepWithin engine n) mode ctx w).start s) :
    SameOutcome engine n mode ctx s (.itemBody v) (.itemBody w) := by
  refine ⟨h, ?_⟩
  unfold takenItems
  rw [hn]
  cases w.isNull with
  | false => exact h
  | true => rfl

theorem sameOutcome_entryBody {v w : Value} (hn : v.isNull = w.isNull)
    (h : (branchEntries engine (keepWithin engine n) mode ctx v).start s =
      (branchEntries engine (keepWithin engine n) mode ctx w).start s) :
    SameOutcome engine n mode ctx s (.entryBody v) (.entryBody w) := by
  refine ⟨h, ?_⟩
  unfold takenEntries
  rw [hn]
  cases w.isNull with
  | false => exact h
  | true => rfl

/-- The first item of a sequence is expanded for itself unless it is a branch. -/
theorem expandItems_next {keep : Keeper} {item : Value} (hi : itemBranch? item = none) (taken : Bool)
    (rest : List Value) :
    expandItems engine keep mode ctx taken (item :: rest) = (do
      let here ← expandItems engine keep mode ctx false [item]
      return here ++ (← expandItems engine keep mode ctx false rest)) := by
  have alone : expandItems engine keep mode ctx taken [item] =
      expandItems engine keep mode ctx false [item] := by
    cases taken with
    | false => rfl
    | true =>
      apply expandItems_taken
      rintro ⟨x, d, hx, hd⟩
      obtain rfl : item = x := Option.some.inj hx
      rw [hi] at hd
      cases hd
  have whole : ¬ CutsRun itemBranch? [item] rest := by
    rintro ⟨x, d, -, -, hx, hd, -⟩
    obtain rfl : item = x := Option.some.inj hx
    rw [hi] at hd
    cases hd
  rw [← alone]
  exact expandItems_append_of taken whole (by simp)

theorem expandEntries_next {keep : Keeper} {key value : Value}
    (hk : branch? (Directive.ofKey? key) = none) (taken : Bool) (before rest : Entries) :
    expandEntries engine keep mode ctx taken before ((key, value) :: rest) = (do
      let here ← expandEntries engine keep mode ctx false [] [(key, value)]
      expandEntries engine keep mode ctx false (before.update here) rest) := by
  have alone : expandEntries engine keep mode ctx taken before [(key, value)] =
      expandEntries engine keep mode ctx false before [(key, value)] := by
    cases taken with
    | false => rfl
    | true =>
      apply expandEntries_taken
      rintro ⟨x, d, hx, hd⟩
      obtain rfl : (key, value) = x := Option.some.inj hx
      rw [entryBranch?, hk] at hd
      cases hd
  have whole : ¬ CutsRun entryBranch? [(key, value)] rest := by
    rintro ⟨x, d, -, -, hx, hd, -⟩
    obtain rfl : (key, value) = x := Option.some.inj hx
    rw [entryBranch?, hk] at hd
    cases hd
  have parts : expandEntries engine keep mode ctx taken before ([(key, value)] ++ rest) = (do
      let first ← expandEntries engine keep mode ctx taken before [(key, value)]
      expandEntries engine keep mode ctx false first rest) :=
    expandEntries_append_of taken before whole (by simp)
  rw [List.singleton_append, alone, expandEntries_before false before [(key, value)], bind_assoc] at parts
  simpa only [pure_bind] using parts

/-- References that are kept have the same outcome if the values of their parameters have it. -/
theorem preserveReference_congr {template p q : Value} (hu : p.isUndefined = q.isUndefined)
    (h : ∀ name t, (ctx.substituteValue template).start s = (.ok name, t) →
      (keepWithin engine n ctx p).start t = (keepWithin engine n ctx q).start t) :
    (preserveReference (keepWithin engine n) ctx template p).start s =
      (preserveReference (keepWithin engine n) ctx template q).start s := by
  unfold preserveReference
  apply Run.start_bind_congr rfl
  intro name t hs
  rw [hu]
  cases q.isUndefined with
  | true => rfl
  | false => exact Run.start_bind_congr (h name t hs) fun _ _ _ => rfl

/-- References with the same template have the same outcome if the parameters that they pass have it. -/
theorem referenceItems_congr {template p q : Value} (hu : p.isUndefined = q.isUndefined)
    (h : ∀ text t a u, (ctx.substituteValue template).start s = (.ok (.text text), t) →
      (fetch engine ctx (Text.strip text)).start t = (.ok a, u) →
      (expandValue engine (keepWithin engine n) .preserving ctx p).start u =
        (expandValue engine (keepWithin engine n) .preserving ctx q).start u) :
    (referenceItems engine (keepWithin engine n) .resolving ctx template p).start s =
      (referenceItems engine (keepWithin engine n) .resolving ctx template q).start s := by
  rw [referenceItems_resolving, referenceItems_resolving]
  apply Run.start_bind_congr rfl
  intro name t hs
  cases name with
  | text text =>
    simp only
    by_cases hb : Text.isBlankText text
    · simp only [hb, if_true]
    · simp only [hb, Bool.false_eq_true, if_false]
      apply Run.start_bind_congr rfl
      intro a u hf
      refine Run.start_bind_congr ?_ fun _ _ _ => rfl
      unfold given
      rw [hu]
      cases q.isUndefined with
      | true => rfl
      | false =>
        simp only [map_eq_pure_bind]
        exact Run.start_bind_congr (h text t a u hs hf) fun _ _ _ => rfl
  | _ => rfl

/-- Parts that are alike where the expansion of the first one looks have the same outcome: the same value
or failure, and the same session after it. -/
theorem Alike.sameOutcome {p q : Part} (h : Alike engine n mode ctx s p q) :
    SameOutcome engine n mode ctx s p q := by
  induction h with
  | same part => exact .refl ..
  | ofItems hv hw _ ih =>
    simp only [SameOutcome] at ih ⊢
    rw [expandValue_items hv, expandValue_items hw]
    exact Run.start_bind_congr ih fun _ _ _ => rfl
  | ofEntries hv hw hr _ ih =>
    simp only [SameOutcome] at ih ⊢
    rw [expandValue_entries hv fun hm => (hr hm).1, expandValue_entries hw fun hm => (hr hm).2]
    exact Run.start_bind_congr (ih []) fun _ _ _ => rfl
  | ofKept hv hw hp hq _ ih =>
    simp only [SameOutcome] at ih ⊢
    rw [expandValue_kept hv hp, expandValue_kept hw hq]
    exact ih.2 trivial
  | ofReference _ ih =>
    simp only [SameOutcome] at ih ⊢
    rw [expandValue_reference, expandValue_reference]
    exact ih.1
  | @kept n ctx s template p q hu _ ih =>
    have hk : (preserveReference (keepWithin engine (n + 1)) ctx template p).start s =
        (preserveReference (keepWithin engine (n + 1)) ctx template q).start s :=
      preserveReference_congr hu ih
    refine ⟨?_, fun _ => hk⟩
    rw [referenceItems_preserving, referenceItems_preserving]
    exact Run.start_bind_congr hk fun _ _ _ => rfl
  | @beyond ctx s template p q hu =>
    have hk : (preserveReference (keepWithin engine 0) ctx template p).start s =
        (preserveReference (keepWithin engine 0) ctx template q).start s :=
      preserveReference_congr hu fun _ _ _ => rfl
    refine ⟨?_, fun _ => hk⟩
    rw [referenceItems_preserving, referenceItems_preserving]
    exact Run.start_bind_congr hk fun _ _ _ => rfl
  | passed hu _ ih =>
    refine ⟨referenceItems_congr hu ih, ?_⟩
    intro hm
    cases hm
  | skippedItem hi hi' hd hd' ho _ ih =>
    simp only [SameOutcome] at ih ⊢
    rw [expandItems_skipped hd (reference?_of_directiveItem? hi) hi,
      expandItems_skipped hd' (reference?_of_directiveItem? hi') hi', ih]
    simp only [ne_eq, ho]
  | branchItem hi hi' hd _ _ _ missed taken after =>
    simp only [SameOutcome] at missed taken after ⊢
    rw [expandItems_choice hd (reference?_of_directiveItem? hi) hi,
      expandItems_choice hd (reference?_of_directiveItem? hi') hi']
    apply Run.start_bind_congr rfl
    intro held t hs
    cases held with
    | false => exact missed t hs
    | true =>
      apply Run.start_bind_congr (taken t hs).2
      intro here u hu
      exact Run.start_bind_congr (after t here u hs hu) fun _ _ _ => rfl
  | nextItem hi hi' _ _ ih after =>
    simp only [SameOutcome] at ih after ⊢
    rw [expandItems_next hi, expandItems_next hi']
    apply Run.start_bind_congr ih
    intro here t hs
    exact Run.start_bind_congr (after here t hs) fun _ _ _ => rfl
  | itemReference hp hq _ ih =>
    simp only [SameOutcome] at ih ⊢
    rw [expandItems_reference hp, expandItems_reference hq]
    exact Run.start_bind_congr ih.1 fun _ _ _ => rfl
  | itemEach hi hi' _ ih =>
    simp only [SameOutcome] at ih ⊢
    rw [expandItems_each (reference?_of_directiveItem? hi) hi,
      expandItems_each (reference?_of_directiveItem? hi') hi']
    apply Run.start_bind_congr rfl
    intro elements t hs
    exact Run.start_bind_congr (ih elements t hs) fun _ _ _ => rfl
  | itemValue hr hr' hd hd' _ ih =>
    simp only [SameOutcome] at ih ⊢
    rw [expandItems_plain hr hd, expandItems_plain hr' hd']
    exact Run.start_bind_congr ih fun _ _ _ => rfl
  | itemBodyItems hb hb' _ ih =>
    apply sameOutcome_itemBody
    · rw [isNull_of_items? hb, isNull_of_items? hb']
    · rw [branchItems_items hb, branchItems_items hb']
      exact ih
  | itemBodyReference hp hq _ ih =>
    apply sameOutcome_itemBody
    · rw [isNull_of_reference? hp, isNull_of_reference? hq]
    · rw [branchItems_reference hp, branchItems_reference hq]
      exact Run.start_bind_congr ih.1 fun _ _ _ => rfl
  | itemBodyValue hi hi' hr hr' h ih =>
    apply sameOutcome_itemBody h.isNull_eq
    rw [branchItems_plain hi hr, branchItems_plain hi' hr']
    exact Run.start_bind_congr ih fun _ _ _ => rfl
  | itemIteration _ _ ih after =>
    simp only [SameOutcome] at after ⊢
    rw [List.mapM_cons, List.mapM_cons]
    apply Run.start_bind_congr
    · exact Run.start_bind_congr rfl fun _ t hs => (ih t hs).1
    · intro here t hs
      exact Run.start_bind_congr (after here t hs) fun _ _ _ => rfl
  | skippedEntry hk hk' hd hd' ho _ ih =>
    simp only [SameOutcome] at ih ⊢
    intro before
    rw [expandEntries_skipped hd hk, expandEntries_skipped hd' hk', ih before]
    simp only [ne_eq, ho]
  | branchEntry hk hk' hd _ _ _ missed taken after =>
    simp only [SameOutcome] at missed taken after ⊢
    intro before
    rw [expandEntries_choice hd hk, expandEntries_choice hd hk']
    apply Run.start_bind_congr rfl
    intro held t hs
    cases held with
    | false => exact missed t hs before
    | true =>
      apply Run.start_bind_congr (taken t hs).2
      intro here u hu
      exact after t here u hs hu (before.update here)
  | @nextEntry _ _ _ _ taken _ _ _ rest rest' hk _ _ ih after =>
    simp only [SameOutcome] at ih after ⊢
    intro before
    rw [expandEntries_next hk taken before rest, expandEntries_next hk taken before rest']
    apply Run.start_bind_congr ih
    intro here t hs
    exact after here t hs (before.update here)
  | entryEach hk _ ih =>
    simp only [SameOutcome] at ih ⊢
    rw [expandEntries_each hk, expandEntries_each hk]
    apply Run.start_bind_congr rfl
    intro elements t hs
    exact Run.start_bind_congr (ih elements t hs) fun _ _ _ => rfl
  | entryInsert hk _ ih =>
    simp only [SameOutcome] at ih ⊢
    rw [expandEntries_insert hk, expandEntries_insert hk]
    exact Run.start_bind_congr ih fun _ _ _ => rfl
  | entryValue hk _ ih =>
    simp only [SameOutcome] at ih ⊢
    rw [expandEntries_plain hk, expandEntries_plain hk]
    exact Run.start_bind_congr ih fun _ _ _ => rfl
  | entryBodyItems hb hb' _ ih =>
    apply sameOutcome_entryBody
    · rw [isNull_of_items? hb, isNull_of_items? hb']
    · rw [branchEntries_items hb, branchEntries_items hb']
      exact Run.start_bind_congr ih fun _ _ _ => rfl
  | entryBodyPairs hb hb' _ ih =>
    apply sameOutcome_entryBody
    · rw [isNull_of_pairs? hb, isNull_of_pairs? hb']
    · rw [branchEntries_pairs hb, branchEntries_pairs hb']
      exact ih []
  | entryIteration _ _ ih after =>
    simp only [SameOutcome] at after ⊢
    rw [List.foldlM_cons, List.foldlM_cons]
    apply Run.start_bind_congr
    · apply Run.start_bind_congr rfl
      intro _ t hs
      exact Run.start_bind_congr (ih t hs).1 fun _ _ _ => rfl
    · exact after

end Steps

end PipelineTemplate.Expansion
