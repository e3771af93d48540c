import PipelineTemplate.Proofs.Yaml.Node
import PipelineTemplate.Yaml.Construction

/-!
# The value of a document

A draft has a value if each of its scalars has one. The node that its text is read as has the same value,
by whichever of the ways to build it.
-/

namespace PipelineTemplate.Yaml

namespace Node

mutual

/-- Whether a draft stands for a value: its scalars do, and its keys are texts. -/
def Means (schema : Schema) (rules : Rules) : Draft → Value → Prop
  | .scalar style text, v =>
    ∀ line, plainValue rules (.scalar (tagIn schema style text) (String.ofList text) style line) = .ok v
  | .sequence items, v => ∃ vs, v = .list vs ∧ MeansItems schema rules items vs
  | .mapping entries, v => ∃ es, v = .pairs es ∧ MeansEntries schema rules entries es

def MeansItems (schema : Schema) (rules : Rules) : List Draft → List Value → Prop
  | [], vs => vs = []
  | item :: items, vs =>
    ∃ v more, vs = v :: more ∧ Means schema rules item v ∧ MeansItems schema rules items more

def MeansEntries (schema : Schema) (rules : Rules) : List (DraftKey × Draft) → Entries → Prop
  | [], es => es = []
  | (key, value) :: entries, es =>
    ∃ s v more, es = (.text s, v) :: more ∧ tagIn schema key.style key.text = .text ∧
      rules.text (String.ofList key.text) key.style = .ok (.text s) ∧ Means schema rules value v ∧
        MeansEntries schema rules entries more

end

variable {schema : Schema} {rules : Rules}

/-! ## Mappings whose keys are texts -/

/-- Whether all keys are texts, so that nothing is merged. -/
def TextKeys (pairs : List (Node × Node)) : Prop := ∀ p ∈ pairs, p.1.tag = some .text

theorem isMerge_text {key : Node} (h : key.tag = some .text) : key.isMerge = false := by
  simp [isMerge, h]

theorem checkMerges_text {pairs : List (Node × Node)} (h : TextKeys pairs) : checkMerges pairs = .ok () := by
  induction pairs with
  | nil => rfl
  | cons pair pairs ih =>
    obtain ⟨hp, hps⟩ := List.forall_mem_cons.1 h
    rw [checkMerges, isMerge_text hp]
    simp only [Bool.false_eq_true, if_false, bind, Except.bind]
    exact ih hps

theorem mergedValues_text {pairs : List (Node × Node)} (h : TextKeys pairs) :
    mergedValues rules pairs = .ok [] := by
  induction pairs with
  | nil => rw [mergedValues]
  | cons pair pairs ih =>
    obtain ⟨key, value⟩ := pair
    obtain ⟨hp, hps⟩ := List.forall_mem_cons.1 h
    have hmerge := isMerge_text hp
    cases value <;> simp only [mergedValues, hmerge, Bool.false_eq_true, if_false, ih hps]

theorem textKeys_spells {entries : List (DraftKey × Draft)} {pairs : List (Node × Node)} {es : Entries}
    (h : SpellsEntries schema entries pairs) (hv : MeansEntries schema rules entries es) : TextKeys pairs := by
  induction entries generalizing pairs es with
  | nil =>
    rw [SpellsEntries] at h
    subst h
    exact fun p hp => absurd hp List.not_mem_nil
  | cons entry entries ih =>
    rw [SpellsEntries] at h
    rw [MeansEntries] at hv
    obtain ⟨line, node, more, rfl, -, hmore⟩ := h
    obtain ⟨s, v, ves, -, htag, -, -, hves⟩ := hv
    exact List.forall_mem_cons.2 ⟨congrArg some htag, ih hmore hves⟩

/-! ## Building the node -/

mutual

/-- The node of a draft has the value of the draft. -/
theorem toValue_spells (hr : rules.distinctKeys = false) : ∀ (d : Draft) (node : Node) (v : Value),
    Spells schema d node → Means schema rules d v → node.toValue rules = .ok v
  | .scalar style text, node, v, h, hv => by
    rw [Spells] at h
    rw [Means] at hv
    obtain ⟨line, rfl⟩ := h
    rw [toValue]
    exact hv line
  | .sequence items, node, v, h, hv => by
    rw [Spells] at h
    rw [Means] at hv
    obtain ⟨nodes, line, rfl, hnodes⟩ := h
    obtain ⟨vs, rfl, hvs⟩ := hv
    rw [toValue, itemValues_spells hr items nodes vs hnodes hvs]
    rfl
  | .mapping entries, node, v, h, hv => by
    rw [Spells] at h
    rw [Means] at hv
    obtain ⟨pairs, line, rfl, hpairs⟩ := h
    obtain ⟨es, rfl, hes⟩ := hv
    have hkeys := textKeys_spells hpairs hes
    rw [toValue, checkMerges_text hkeys, mergedValues_text hkeys, ownValues_spells hr entries pairs es hpairs hes]
    simp only [bind, Except.bind, pure, Except.pure, hr, Bool.false_eq_true, if_false, List.nil_append]

theorem itemValues_spells (hr : rules.distinctKeys = false) : ∀ (items : List Draft) (nodes : List Node)
    (vs : List Value), SpellsItems schema items nodes → MeansItems schema rules items vs →
    itemValues rules nodes = .ok vs
  | [], nodes, vs, h, hv => by
    rw [SpellsItems] at h
    rw [MeansItems] at hv
    subst h hv
    rw [itemValues]
  | item :: items, nodes, vs, h, hv => by
    rw [SpellsItems] at h
    rw [MeansItems] at hv
    obtain ⟨node, more, rfl, hnode, hmore⟩ := h
    obtain ⟨v, others, rfl, hvalue, hothers⟩ := hv
    rw [itemValues, toValue_spells hr item node v hnode hvalue, itemValues_spells hr items more others hmore hothers]
    rfl

theorem ownValues_spells (hr : rules.distinctKeys = false) : ∀ (entries : List (DraftKey × Draft))
    (pairs : List (Node × Node)) (es : Entries), SpellsEntries schema entries pairs →
    MeansEntries schema rules entries es → ownValues rules pairs = .ok es
  | [], pairs, es, h, hv => by
    rw [SpellsEntries] at h
    rw [MeansEntries] at hv
    subst h hv
    rw [ownValues]
  | (key, value) :: entries, pairs, es, h, hv => by
    rw [SpellsEntries] at h
    rw [MeansEntries] at hv
    obtain ⟨line, node, more, rfl, hnode, hmore⟩ := h
    obtain ⟨s, v, others, rfl, htag, htext, hvalue, hothers⟩ := hv
    have hkey : toValue rules (.scalar .text (String.ofList key.text) key.style line) = .ok (.text s) := by
      rw [toValue]
      simp [plainValue, tag, scalarText, htext, bind, Except.bind]
    rw [htag, ownValues, isMerge_text rfl]
    simp only [Bool.false_eq_true, if_false, hkey, isKey, Bool.not_true, bind, Except.bind, pure, Except.pure,
      toValue_spells hr value node v hnode hvalue, ownValues_spells hr entries more others hmore hothers]

end

mutual

theorem isEndless_spells : ∀ (d : Draft) (node : Node), Spells schema d node → node.isEndless = false
  | .scalar style text, node, h => by
    rw [Spells] at h
    obtain ⟨line, rfl⟩ := h
    rw [isEndless]
  | .sequence items, node, h => by
    rw [Spells] at h
    obtain ⟨nodes, line, rfl, hnodes⟩ := h
    rw [isEndless]
    exact anyEndless_spells items nodes hnodes
  | .mapping entries, node, h => by
    rw [Spells] at h
    obtain ⟨pairs, line, rfl, hpairs⟩ := h
    rw [isEndless]
    exact anyPairEndless_spells entries pairs hpairs

theorem anyEndless_spells : ∀ (items : List Draft) (nodes : List Node), SpellsItems schema items nodes →
    anyEndless nodes = false
  | [], nodes, h => by
    rw [SpellsItems] at h
    subst h
    rw [anyEndless]
  | item :: items, nodes, h => by
    rw [SpellsItems] at h
    obtain ⟨node, more, rfl, hnode, hmore⟩ := h
    rw [anyEndless, isEndless_spells item node hnode, anyEndless_spells items more hmore, Bool.or_self]

theorem anyPairEndless_spells : ∀ (entries : List (DraftKey × Draft)) (pairs : List (Node × Node)),
    SpellsEntries schema entries pairs → anyPairEndless pairs = false
  | [], pairs, h => by
    rw [SpellsEntries] at h
    subst h
    rw [anyPairEndless]
  | (key, value) :: entries, pairs, h => by
    rw [SpellsEntries] at h
    obtain ⟨line, node, more, rfl, hnode, hmore⟩ := h
    rw [anyPairEndless, isEndless, isEndless_spells value node hnode, anyPairEndless_spells entries more hmore]
    rfl

end

/-! ## Level by level -/

mutual

/-- What can be built at all can be built level by level. -/
theorem levelValue_ok : ∀ (node : Node) (level : Nat) (v : Value), node.toValue rules = .ok v →
    levelValue rules level node = .ok v
  | .sequence tag items line, level, v, h => by
    cases tag with
    | sequence =>
      rw [toValue] at h
      cases hitems : itemValues rules items with
      | error e => simp [hitems, bind, Except.bind] at h
      | ok vs =>
        simp only [hitems, bind, Except.bind, pure, Except.pure, Except.ok.injEq] at h
        rw [levelValue, levelValues_ok items (level + 1) vs hitems, ← h]
        rfl
    | _ => simp [levelValue, h, Except.mapError]
  | .scalar .., level, v, h => by simp [levelValue, h, Except.mapError]
  | .mapping .., level, v, h => by simp [levelValue, h, Except.mapError]
  | .enclosing .., level, v, h => by simp [levelValue, h, Except.mapError]

theorem levelValues_ok : ∀ (items : List Node) (level : Nat) (vs : List Value), itemValues rules items = .ok vs →
    levelValues rules level items = .ok vs
  | [], level, vs, h => by
    rw [itemValues] at h
    rw [levelValues, Except.ok.inj h]
  | item :: items, level, vs, h => by
    rw [itemValues] at h
    cases hitem : toValue rules item with
    | error e => simp [hitem, bind, Except.bind] at h
    | ok v =>
      cases hitems : itemValues rules items with
      | error e => simp [hitem, hitems, bind, Except.bind] at h
      | ok more =>
        simp only [hitem, hitems, bind, Except.bind, pure, Except.pure, Except.ok.injEq] at h
        rw [levelValues, levelValue_ok item level v hitem, levelValues_ok items level more hitems]
        simp only [h]

end

/-! ## Whole documents -/

/-- A node of a draft has the value of the draft. -/
theorem documentValue_spells {d : Draft} {node : Node} {v : Value} (hr : rules.distinctKeys = false)
    (hspells : Spells schema d node) (hv : Means schema rules d v) : node.documentValue rules = .ok v := by
  rw [documentValue, levelValue_ok node 0 v (toValue_spells hr d node v hspells hv), isEndless_spells d node hspells]
  rfl

/-- The text of a draft has the value of the draft. -/
theorem documentValue_draft {d : Draft} {marked : Bool} {v : Value} (hr : rules.distinctKeys = false)
    (hvalid : Draft.Valid d.rootIndent d) (hmark : d.NeedsMark → marked = true)
    (hv : Means schema rules d v) :
    ∃ node, ofText schema (d.text marked) = .ok (some node) ∧ node.documentValue rules = .ok v := by
  obtain ⟨node, hnode, hspells⟩ := ofText_draft schema hvalid hmark
  exact ⟨node, hnode, documentValue_spells hr hspells hv⟩

end Node

end PipelineTemplate.Yaml
