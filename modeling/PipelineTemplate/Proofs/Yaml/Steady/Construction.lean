import PipelineTemplate.Proofs.Yaml.Steady.Node
import PipelineTemplate.Yaml.Construction

/-!
# The values of nodes on other lines

The lines of its nodes have no part in the value of a document, nor in why it has none. A fault that is
not that of a malformed document comes from a scalar of it that does not say what its tag asks for.
-/

namespace PipelineTemplate.Yaml

namespace Node

/-! ## Causes -/

/-- A node is another one or stands inside it. -/
inductive Within (part : Node) : Node → Prop
  | refl : Within part part
  | item {item : Node} {tag : Tag} {items : List Node} {line : Nat} (h : item ∈ items) (hpart : Within part item) :
      Within part (.sequence tag items line)
  | key {pair : Node × Node} {tag : Tag} {pairs : List (Node × Node)} {line : Nat} (h : pair ∈ pairs)
      (hpart : Within part pair.1) : Within part (.mapping tag pairs line)
  | value {pair : Node × Node} {tag : Tag} {pairs : List (Node × Node)} {line : Nat} (h : pair ∈ pairs)
      (hpart : Within part pair.2) : Within part (.mapping tag pairs line)

/-- Whether a node is a collection in the sense of its tag. -/
def IsCollection : Node → Prop
  | .sequence tag .. => tag = .sequence
  | .mapping tag .. => tag = .mapping
  | .scalar .. | .enclosing .. => False

/-- A node that is no collection in the sense of its tag has no value; a key for the default value is a
text. -/
inductive Unreadable (rules : Rules) : Node → Fault → Prop
  | plain {node : Node} {f : Fault} (hform : ¬node.IsCollection) (h : plainValue rules node = .error f) :
      Unreadable rules node f
  | defaultKey {text : String} {style : Style} {line : Nat} {f : Fault} (h : rules.text text style = .error f) :
      Unreadable rules (.scalar .value text style line) f

/-- Why a node has no value: the document is malformed, or a part of the node cannot be read. -/
def Faulty (rules : Rules) (node : Node) (f : Fault) : Prop :=
  Malformed f ∨ ∃ part, Within part node ∧ Unreadable rules part f

variable {rules : Rules} {f : Fault}

theorem Faulty.item {item : Node} {items : List Node} (h : item ∈ items) (hf : Faulty rules item f) (tag : Tag)
    (line : Nat) : Faulty rules (.sequence tag items line) f := by
  rcases hf with hf | ⟨part, hpart, hf⟩
  · exact .inl hf
  · exact .inr ⟨part, .item h hpart, hf⟩

/-- Why a key or a value among some pairs has no value. -/
def FaultyPairs (rules : Rules) (pairs : List (Node × Node)) (f : Fault) : Prop :=
  Malformed f ∨ ∃ pair ∈ pairs, Faulty rules pair.1 f ∨ Faulty rules pair.2 f

theorem FaultyPairs.mapping {pairs : List (Node × Node)} (h : FaultyPairs rules pairs f) (tag : Tag) (line : Nat) :
    Faulty rules (.mapping tag pairs line) f := by
  rcases h with hf | ⟨pair, hpair, (hf | ⟨part, hpart, hf⟩) | (hf | ⟨part, hpart, hf⟩)⟩
  · exact .inl hf
  · exact .inl hf
  · exact .inr ⟨part, .key hpair hpart, hf⟩
  · exact .inl hf
  · exact .inr ⟨part, .value hpair hpart, hf⟩

/-- Why an item among some has no value. -/
def FaultyItems (rules : Rules) (items : List Node) (f : Fault) : Prop :=
  Malformed f ∨ ∃ item ∈ items, Faulty rules item f

theorem FaultyItems.sequence {items : List Node} (h : FaultyItems rules items f) (tag : Tag) (line : Nat) :
    Faulty rules (.sequence tag items line) f := by
  rcases h with hf | ⟨item, hitem, hf⟩
  · exact .inl hf
  · exact hf.item hitem tag line

theorem FaultyItems.cons {items : List Node} (h : FaultyItems rules items f) (item : Node) :
    FaultyItems rules (item :: items) f := by
  rcases h with hf | ⟨other, hother, hf⟩
  · exact .inl hf
  · exact .inr ⟨other, List.mem_cons_of_mem _ hother, hf⟩

theorem FaultyItems.head {item : Node} (h : Faulty rules item f) (items : List Node) :
    FaultyItems rules (item :: items) f := .inr ⟨item, List.mem_cons_self, h⟩

theorem FaultyPairs.key {pair : Node × Node} (h : Faulty rules pair.1 f) (pairs : List (Node × Node)) :
    FaultyPairs rules (pair :: pairs) f := .inr ⟨pair, List.mem_cons_self, .inl h⟩

theorem FaultyPairs.value {pair : Node × Node} (h : Faulty rules pair.2 f) (pairs : List (Node × Node)) :
    FaultyPairs rules (pair :: pairs) f := .inr ⟨pair, List.mem_cons_self, .inr h⟩

theorem FaultyPairs.cons {pairs : List (Node × Node)} (h : FaultyPairs rules pairs f) (pair : Node × Node) :
    FaultyPairs rules (pair :: pairs) f := by
  rcases h with hf | ⟨other, hother, hf⟩
  · exact .inl hf
  · exact .inr ⟨other, List.mem_cons_of_mem _ hother, hf⟩

/-! ## Parts of mappings -/

@[simp] theorem tag_bare (node : Node) : node.bare.tag = node.tag := by
  cases node <;> rfl

@[simp] theorem isMerge_bare (node : Node) : node.bare.isMerge = node.isMerge := by
  rw [isMerge, isMerge, tag_bare]

mutual

theorem checkMerges_bare : ∀ pairs : List (Node × Node),
    Twin (For Malformed) Eq (checkMerges pairs) (checkMerges (barePairs pairs))
  | [] => .ok rfl
  | (key, value) :: rest => by
    rw [barePairs, checkMerges, checkMerges, isMerge_bare]
    split
    · exact (checkMerged_bare value).bind fun _ _ _ => checkMerges_bare rest
    · exact checkMerges_bare rest

theorem checkMerged_bare : ∀ node : Node, Twin (For Malformed) Eq (checkMerged node) (checkMerged node.bare)
  | .scalar .. => fail_twin _ _ _
  | .sequence _ items _ => checkMergedItems_bare items
  | .mapping _ pairs _ => checkMerges_bare pairs
  | .enclosing .. => fail_twin _ _ _

theorem checkMergedItems_bare : ∀ items : List Node,
    Twin (For Malformed) Eq (checkMergedItems items) (checkMergedItems (bareItems items))
  | [] => .ok rfl
  | .mapping _ pairs _ :: rest => (checkMerges_bare pairs).bind fun _ _ _ => checkMergedItems_bare rest
  | .scalar .. :: _ => fail_twin _ _ _
  | .sequence .. :: _ => fail_twin _ _ _
  | .enclosing .. :: _ => fail_twin _ _ _

end

mutual

theorem scalarText_bare : ∀ node : Node, Twin (For Malformed) Eq (scalarText node) (scalarText node.bare)
  | .scalar .. => .ok rfl
  | .sequence .. => fail_twin _ _ _
  | .mapping _ pairs line => defaultText_bare line pairs
  | .enclosing .. => fail_twin _ _ _

theorem defaultText_bare (line : Nat) : ∀ pairs : List (Node × Node),
    Twin (For Malformed) Eq (defaultText line pairs) (defaultText 0 (barePairs pairs))
  | [] => fail_twin _ _ _
  | (key, value) :: rest => by
    rw [barePairs, defaultText, defaultText, tag_bare]
    split
    · exact scalarText_bare value
    · exact defaultText_bare line rest

end

/-! ## Values -/

/-- The faults of a run are those for which it fails. -/
theorem twin_of_bare {α : Type} {x y : Except Fault α} (h : Twin (fun f f' => f'.bare = f.bare) Eq x y) :
    Twin (For fun f => x = .error f) Eq x y := by
  cases h with
  | ok related => exact .ok related
  | error related => exact .error ⟨related, rfl⟩

theorem twin_refl {α : Type} (x : Except Fault α) : Twin (fun f f' => f'.bare = f.bare) Eq x x := by
  cases x with
  | ok a => exact .ok rfl
  | error f => exact .error rfl

theorem plainValue_bare (rules : Rules) (node : Node) :
    Twin (For fun f => plainValue rules node = .error f) Eq (plainValue rules node)
      (plainValue rules node.bare) := by
  have htext : Twin (fun f f' => f'.bare = f.bare) Eq (scalarText node) (scalarText node.bare) :=
    (scalarText_bare node).mono fun _ _ h => h.1
  have hfail {α : Type} (stage : YamlStage) (line line' : Nat) :
      Twin (fun f f' => f'.bare = f.bare) Eq (fail stage line : Except Fault α) (fail stage line') := .error rfl
  apply twin_of_bare
  rw [plainValue.eq_def rules node, plainValue.eq_def rules node.bare, tag_bare]
  split
  · refine htext.bind fun a b hab => ?_
    subst hab
    cases node <;> exact twin_refl _
  · refine htext.bind fun a b hab => ?_
    subst hab
    exact twin_refl _
  · refine htext.bind fun a b hab => ?_
    subst hab
    exact twin_refl _
  · refine htext.bind fun a b hab => ?_
    subst hab
    exact twin_refl _
  · exact htext.bind fun _ _ _ => .ok rfl
  · refine htext.bind fun a b hab => ?_
    subst hab
    cases node <;> exact twin_refl _
  · split
    · exact hfail _ _ _
    · cases node with
      | sequence tag items line => cases items <;> exact twin_refl _
      | _ => exact twin_refl _
  · exact hfail _ _ _

theorem plainValue_twin (rules : Rules) {node : Node} (hform : ¬node.IsCollection) :
    Twin (For (Faulty rules node)) Eq (plainValue rules node) (plainValue rules node.bare) :=
  (plainValue_bare rules node).mono fun _ _ h => h.mono fun hf => .inr ⟨node, .refl, .plain hform hf⟩

theorem toValue_sequence {tag : Tag} (h : tag ≠ .sequence) (items : List Node) (line : Nat) :
    toValue rules (.sequence tag items line) = plainValue rules (.sequence tag items line) := by
  rw [toValue]
  exact h

theorem toValue_mapping {tag : Tag} (h : tag ≠ .mapping) (pairs : List (Node × Node)) (line : Nat) :
    toValue rules (.mapping tag pairs line) = plainValue rules (.mapping tag pairs line) := by
  rw [toValue]
  exact h

/-- The value of a key. One for the default value is a text. -/
def keyValue (rules : Rules) (key : Node) : Except Fault Value :=
  match key with
  | .scalar .value text style line => plainValue rules (.scalar .text text style line)
  | key => toValue rules key

theorem keyValue_scalar {tag : Tag} (h : tag ≠ .value) (text : String) (style : Style) (line : Nat) :
    keyValue rules (.scalar tag text style line) = toValue rules (.scalar tag text style line) := by
  cases tag <;> first | rfl | exact absurd rfl h

theorem keyValue_bare {key : Node}
    (h : Twin (For (Faulty rules key)) Eq (toValue rules key) (toValue rules key.bare)) :
    Twin (For (Faulty rules key)) Eq (keyValue rules key) (keyValue rules key.bare) := by
  cases key with
  | scalar tag text style line =>
    -- a key for the default value is read as a text, so the hypothesis does not speak of it
    by_cases htag : tag = .value
    · subst htag
      refine (plainValue_bare rules (.scalar .text text style line)).mono fun f _ h => h.mono fun hf => ?_
      exact .inr ⟨_, .refl, .defaultKey hf⟩
    · rw [bare, keyValue_scalar htag, keyValue_scalar htag]
      exact h
  | sequence => exact h
  | mapping => exact h
  | enclosing => exact h

theorem ownValues_cons {key : Node} (h : key.isMerge = false) (value : Node) (rest : List (Node × Node)) :
    ownValues rules ((key, value) :: rest) = (do
      let k ← keyValue rules key
      if !isKey k then fail .values key.line
      let v ← toValue rules value
      let more ← ownValues rules rest
      return (k, v) :: more) := by
  rw [ownValues, h]
  cases key with
  | scalar tag text style line => cases tag <;> rfl
  | sequence => rfl
  | mapping => rfl
  | enclosing => rfl

mutual

theorem toValue_bare (rules : Rules) : ∀ node : Node,
    Twin (For (Faulty rules node)) Eq (toValue rules node) (toValue rules node.bare)
  | .scalar tag text style line => by
    rw [bare, toValue, toValue]
    exact @plainValue_twin rules (.scalar tag text style line) id
  | .sequence tag items line => by
    by_cases htag : tag = .sequence
    · subst htag
      rw [bare, toValue, toValue]
      refine ((itemValues_bare rules items).mono fun _ _ h => h.mono fun hf => hf.sequence .sequence line).bind
        fun vs ws hvs => .ok ?_
      rw [hvs]
    · rw [bare, toValue_sequence htag, toValue_sequence htag]
      exact @plainValue_twin rules (.sequence tag items line) htag
  | .mapping tag pairs line => by
    by_cases htag : tag = .mapping
    · subst htag
      rw [bare, toValue, toValue]
      refine ((checkMerges_bare pairs).mono fun _ _ h => h.mono .inl).bind fun _ _ _ => ?_
      refine ((mergedValues_bare rules pairs).mono fun _ _ h => h.mono fun hf => hf.mapping .mapping line).bind
        fun merged merged' hmerged => ?_
      refine ((ownValues_bare rules pairs).mono fun _ _ h => h.mono fun hf => hf.mapping .mapping line).bind
        fun own own' hown => .ok ?_
      rw [hmerged, hown]
    · rw [bare, toValue_mapping htag, toValue_mapping htag]
      exact @plainValue_twin rules (.mapping tag pairs line) htag
  | .enclosing inSequences line => by
    rw [bare, toValue, toValue]
    split
    · exact .ok rfl
    · exact (fail_twin _ _ _).mono fun _ _ h => h.mono .inl

theorem itemValues_bare (rules : Rules) : ∀ items : List Node,
    Twin (For (FaultyItems rules items)) Eq (itemValues rules items) (itemValues rules (bareItems items))
  | [] => .ok rfl
  | item :: items => by
    rw [bareItems, itemValues, itemValues]
    refine ((toValue_bare rules item).mono fun _ _ h => h.mono fun hf => .head hf items).bind fun v w hv => ?_
    refine ((itemValues_bare rules items).mono fun _ _ h => h.mono fun hf => hf.cons item).bind
      fun vs ws hvs => .ok ?_
    rw [hv, hvs]

theorem mergedValues_bare (rules : Rules) : ∀ pairs : List (Node × Node),
    Twin (For (FaultyPairs rules pairs)) Eq (mergedValues rules pairs) (mergedValues rules (barePairs pairs))
  | [] => .ok rfl
  | (key, .mapping tag inner line) :: rest => by
    have hinner {f : Fault} (hf : FaultyPairs rules inner f) :
        FaultyPairs rules ((key, .mapping tag inner line) :: rest) f := .value (hf.mapping tag line) rest
    have hrest := (mergedValues_bare rules rest).mono fun _ _ h => h.mono fun hf =>
      hf.cons (key, .mapping tag inner line)
    rw [barePairs, bare, mergedValues, mergedValues, isMerge_bare]
    split
    · refine ((mergedValues_bare rules inner).mono fun _ _ h => h.mono hinner).bind fun outer outer' houter => ?_
      refine ((ownValues_bare rules inner).mono fun _ _ h => h.mono hinner).bind fun own own' hown => ?_
      refine hrest.bind fun more more' hmore => .ok ?_
      rw [houter, hown, hmore]
    · exact hrest
  | (key, .sequence tag items line) :: rest => by
    have hrest := (mergedValues_bare rules rest).mono fun _ _ h => h.mono fun hf =>
      hf.cons (key, .sequence tag items line)
    rw [barePairs, bare, mergedValues, mergedValues, isMerge_bare]
    split
    · refine ((mergedItems_bare rules items).mono fun _ _ h => h.mono fun hf =>
        .value (hf.sequence tag line) rest).bind fun merged merged' hmerged => ?_
      refine hrest.bind fun more more' hmore => .ok ?_
      rw [hmerged, hmore]
    · exact hrest
  | (key, .scalar tag text style line) :: rest => by
    rw [barePairs, bare, mergedValues, mergedValues]
    · exact (mergedValues_bare rules rest).mono fun _ _ h => h.mono fun hf => hf.cons _
    all_goals simp
  | (key, .enclosing inSequences line) :: rest => by
    rw [barePairs, bare, mergedValues, mergedValues]
    · exact (mergedValues_bare rules rest).mono fun _ _ h => h.mono fun hf => hf.cons _
    all_goals simp

theorem mergedItems_bare (rules : Rules) : ∀ items : List Node,
    Twin (For (FaultyItems rules items)) Eq (mergedItems rules items) (mergedItems rules (bareItems items))
  | [] => .ok rfl
  | .mapping tag pairs line :: rest => by
    have hpairs {f : Fault} (hf : FaultyPairs rules pairs f) :
        FaultyItems rules (.mapping tag pairs line :: rest) f :=
      .head (hf.mapping tag line) rest
    rw [bareItems, bare, mergedItems, mergedItems]
    refine ((mergedItems_bare rules rest).mono fun _ _ h => h.mono fun hf => hf.cons _).bind
      fun later later' hlater => ?_
    refine ((mergedValues_bare rules pairs).mono fun _ _ h => h.mono hpairs).bind fun outer outer' houter => ?_
    refine ((ownValues_bare rules pairs).mono fun _ _ h => h.mono hpairs).bind fun own own' hown => .ok ?_
    rw [hlater, houter, hown]
  | .scalar .. :: rest => by
    rw [bareItems, bare, mergedItems, mergedItems]
    · exact (mergedItems_bare rules rest).mono fun _ _ h => h.mono fun hf => hf.cons _
    all_goals simp
  | .sequence .. :: rest => by
    rw [bareItems, bare, mergedItems, mergedItems]
    · exact (mergedItems_bare rules rest).mono fun _ _ h => h.mono fun hf => hf.cons _
    all_goals simp
  | .enclosing .. :: rest => by
    rw [bareItems, bare, mergedItems, mergedItems]
    · exact (mergedItems_bare rules rest).mono fun _ _ h => h.mono fun hf => hf.cons _
    all_goals simp

theorem ownValues_bare (rules : Rules) : ∀ pairs : List (Node × Node),
    Twin (For (FaultyPairs rules pairs)) Eq (ownValues rules pairs) (ownValues rules (barePairs pairs))
  | [] => .ok rfl
  | (key, value) :: rest => by
    have hkey := keyValue_bare (toValue_bare rules key)
    have hvalue := toValue_bare rules value
    have hrest := (ownValues_bare rules rest).mono fun _ _ h => h.mono fun hf => hf.cons (key, value)
    rw [barePairs]
    cases hmerge : key.isMerge with
    | true =>
      rw [ownValues, ownValues, isMerge_bare, hmerge]
      exact hrest
    | false =>
      rw [ownValues_cons hmerge, ownValues_cons ((isMerge_bare key).trans hmerge)]
      refine Twin.bind (hkey.mono fun _ _ h => h.mono fun hf => FaultyPairs.key hf rest) fun k k' hk => ?_
      subst hk
      have hpair : Twin (For (FaultyPairs rules ((key, value) :: rest))) Eq
          (do return (k, ← toValue rules value) :: (← ownValues rules rest))
          (do return (k, ← toValue rules value.bare) :: (← ownValues rules (barePairs rest))) := by
        refine (hvalue.mono fun _ _ h => h.mono fun hf => FaultyPairs.value hf rest).bind fun v w hv => ?_
        refine hrest.bind fun more more' hmore => .ok ?_
        rw [hv, hmore]
      dsimp only
      split
      · exact (fail_twin _ _ _).mono fun _ _ h => h.mono .inl
      · exact hpair

end

/-! ## Documents -/

/-- The same fault on the same level, for some cause. -/
def OnLevel (cause : Fault → Prop) (e e' : Nat × Fault) : Prop := e'.1 = e.1 ∧ For cause e.2 e'.2

theorem OnLevel.mono {cause cause' : Fault → Prop} {e e' : Nat × Fault} (h : OnLevel cause e e')
    (hcause : cause e.2 → cause' e.2) : OnLevel cause' e e' := ⟨h.1, h.2.mono hcause⟩

theorem mapError_level {cause : Fault → Prop} {x y : Except Fault Value} (h : Twin (For cause) Eq x y)
    (level : Nat) :
    Twin (OnLevel cause) Eq (x.mapError (level, ·)) (y.mapError (level, ·)) := by
  cases h with
  | ok related => exact .ok related
  | error related => exact .error ⟨rfl, related⟩

theorem levelValue_sequence {tag : Tag} (h : tag ≠ .sequence) (rules : Rules) (level : Nat) (items : List Node)
    (line : Nat) : levelValue rules level (.sequence tag items line) =
      (toValue rules (.sequence tag items line)).mapError (level, ·) := by
  have htag : ¬(Node.sequence tag items line).tag = some .sequence := fun heq => h (Option.some.inj heq)
  rw [levelValue]
  · rw [if_neg htag]
  · exact fun items line heq => h (Node.sequence.inj heq).1

mutual

theorem levelValue_bare (rules : Rules) : ∀ (level : Nat) (node : Node),
    Twin (OnLevel (Faulty rules node)) Eq (levelValue rules level node) (levelValue rules level node.bare)
  | level, .sequence tag items line => by
    by_cases htag : tag = .sequence
    · subst htag
      rw [bare, levelValue, levelValue]
      refine ((levelValues_bare rules (level + 1) items).mono fun _ _ h => h.mono fun hf =>
        hf.sequence .sequence line).bind fun vs ws hvs => .ok ?_
      rw [hvs]
    · rw [bare, levelValue_sequence htag, levelValue_sequence htag]
      exact mapError_level (toValue_bare rules (.sequence tag items line)) level
  | level, .scalar tag text style line => mapError_level (toValue_bare rules (.scalar tag text style line)) _
  | level, .mapping tag pairs line => mapError_level (toValue_bare rules (.mapping tag pairs line)) _
  | level, .enclosing inSequences line => mapError_level (toValue_bare rules (.enclosing inSequences line)) _

theorem levelValues_bare (rules : Rules) : ∀ (level : Nat) (items : List Node),
    Twin (OnLevel (FaultyItems rules items)) Eq (levelValues rules level items)
      (levelValues rules level (bareItems items))
  | level, [] => .ok rfl
  | level, item :: items => by
    have hitem := (levelValue_bare rules level item).mono fun _ _ h => h.mono fun hf => FaultyItems.head hf items
    have hitems := (levelValues_bare rules level items).mono fun _ _ h => h.mono fun hf => hf.cons item
    rw [bareItems, levelValues, levelValues]
    generalize levelValue rules level item = x at hitem ⊢
    generalize levelValue rules level item.bare = y at hitem ⊢
    generalize levelValues rules level items = xs at hitems ⊢
    generalize levelValues rules level (bareItems items) = ys at hitems ⊢
    cases hitem with
    | ok hv =>
      cases hitems with
      | ok hvs => exact .ok (by rw [hv, hvs])
      | error he => exact .error he
    | @error e e' he =>
      cases hitems with
      | ok => exact .error he
      | @error f f' hf =>
        refine .error ?_
        rw [he.1, hf.1]
        split
        · exact hf
        · exact he

end

mutual

theorem isEndless_bare : ∀ node : Node, node.bare.isEndless = node.isEndless
  | .scalar .. => rfl
  | .sequence _ items _ => anyEndless_bare items
  | .mapping _ pairs _ => anyPairEndless_bare pairs
  | .enclosing .. => rfl

theorem anyEndless_bare : ∀ items : List Node, anyEndless (bareItems items) = anyEndless items
  | [] => rfl
  | item :: items => by
    rw [bareItems, anyEndless, anyEndless, isEndless_bare item, anyEndless_bare items]

theorem anyPairEndless_bare : ∀ pairs : List (Node × Node), anyPairEndless (barePairs pairs) = anyPairEndless pairs
  | [] => rfl
  | (key, value) :: rest => by
    rw [barePairs, anyPairEndless, anyPairEndless, isEndless_bare key, isEndless_bare value,
      anyPairEndless_bare rest]

end

/-- The value of a document does not depend on its lines. It has none if it is not well formed, if a scalar of
it cannot be read, or if it contains itself. -/
theorem documentValue_bare (rules : Rules) (node : Node) :
    Twin (For fun f => Faulty rules node f ∨ f = .endless ∧ node.isEndless = true) Eq (documentValue rules node)
      (documentValue rules node.bare) := by
  have hvalue := levelValue_bare rules 0 node
  rw [documentValue, documentValue, isEndless_bare]
  generalize levelValue rules 0 node = x at hvalue ⊢
  generalize levelValue rules 0 node.bare = y at hvalue ⊢
  cases hvalue with
  | ok hv =>
    subst hv
    cases hendless : node.isEndless with
    | true => exact .error ⟨rfl, .inr ⟨rfl, rfl⟩⟩
    | false => exact .ok rfl
  | error he => exact .error (he.2.mono .inl)

end Node

/-- The value of a text without expressions by some rules; that of an empty one is null. -/
def valueOf (rules : Rules) (text : List Char) : Except Fault Value := do
  match ← Node.ofText .core text with
  | none => return .null
  | some node => node.documentValue rules

/-- A document that is read from a text has no value. -/
def NoValue (rules : Rules) (text : List Char) (f : Fault) : Prop :=
  ∃ node, Node.ofText .core text = .ok (some node) ∧
    (Node.Faulty rules node f ∨ f = .endless ∧ node.isEndless = true)

theorem twin_join {α : Type} {cause cause' : Fault → Prop} {x y z : Except Fault α}
    (h : Twin (Node.For cause) Eq x z) (h' : Twin (Node.For cause') Eq y z) : Twin (Node.For cause) Eq x y := by
  cases h with
  | ok hx =>
    cases h' with
    | ok hy => exact .ok (hx.trans hy.symm)
  | error hx =>
    cases h' with
    | error hy => exact .error ⟨hy.1.symm.trans hx.1, hx.2⟩

/-- Two texts with the same tokens have the same value, or none for the same reason. -/
theorem valueOf_twin (rules : Rules) {text text' : List Char} {ls ls' : List Lexeme}
    {failure failure' : Option Fault} (h : tokens text = .ok (ls, failure))
    (h' : tokens text' = .ok (ls', failure'))
    (hls : ls'.map Lexeme.token = ls.map Lexeme.token)
    (hfailure : failure'.map Fault.bare = failure.map Fault.bare) :
    Twin (Node.For fun f => (Node.Malformed f ∨ f = Node.cutOf failure) ∨ NoValue rules text f) Eq
      (valueOf rules text) (valueOf rules text') := by
  have htwin : Twin (Node.Cut (Node.cutOf failure)) (fun a b => b.map Node.bare = a.map Node.bare)
      (Node.ofText .core text) (Node.ofText .core text') := Node.ofText_twin h h' hls hfailure
  rw [valueOf, valueOf]
  cases hx : Node.ofText .core text with
  | error f =>
    rw [hx] at htwin
    generalize Node.ofText .core text' = y at htwin ⊢
    cases htwin with
    | error related => exact .error (related.mono .inl)
  | ok a =>
    rw [hx] at htwin
    generalize Node.ofText .core text' = y at htwin ⊢
    cases htwin with
    | @ok _ b related =>
      cases a with
      | none =>
        obtain rfl := Option.map_eq_none_iff.1 related
        exact .ok rfl
      | some node =>
        obtain ⟨node', rfl, hnode⟩ := Option.map_eq_some_iff.1 related
        have hvalue := Node.documentValue_bare rules node
        rw [← hnode] at hvalue
        exact (twin_join hvalue (Node.documentValue_bare rules node')).mono fun _ _ h =>
          h.mono fun hf => .inr ⟨node, hx, hf⟩

end PipelineTemplate.Yaml
