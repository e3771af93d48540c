import PipelineTemplate.Proofs.Entries.Settled
import PipelineTemplate.Proofs.Expansion.Step

/-!
# Plain documents

A document without expressions and references is not changed by its expansion, apart from its form: a key
that is repeated stays once, and a list that stands directly in another is put in its place there.
-/

namespace PipelineTemplate

namespace Value

/-- A value without parts; no expression begins in it. -/
inductive PlainScalar : Value → Prop where
  | null : PlainScalar .null
  | bool (b : Bool) : PlainScalar (.bool b)
  | number (n : Number.Numeric) : PlainScalar (.number n)
  | text {s : String} (h : PlainText s) : PlainScalar (.text s)
  | date (d : Date) : PlainScalar (.date d)
  | time (t : DateTime) : PlainScalar (.time t)

/-- A tree of scalars, lists and mappings, in which no expression begins and no item of a list is a
reference to a template. -/
inductive Plain : Value → Prop where
  | scalar {v : Value} (h : PlainScalar v) : Plain v
  | list {items : List Value} (h : ∀ item ∈ items, Plain item)
      (hr : ∀ item ∈ items, item.reference? = none) : Plain (.list items)
  | mapping {v : Value} {entries : Entries} (h : v.pairs? = some entries)
      (hk : ∀ entry ∈ entries, PlainScalar entry.1) (hv : ∀ entry ∈ entries, Plain entry.2) : Plain v

mutual

/-- The normal form of a tree: a mapping has each key once, at its first place and with its last value, and
a list that stands directly in another is put in its place there. -/
def normal : Value → Value
  | .list items => .list (normalItems items)
  | .map entries | .pairs entries => .map (normalEntries entries).settled
  | v => v

def normalItems : List Value → List Value
  | [] => []
  | .list items :: rest => normalItems items ++ normalItems rest
  | item :: rest => item.normal :: normalItems rest

def normalEntries : Entries → Entries
  | [] => []
  | (k, v) :: rest => (k, v.normal) :: normalEntries rest

end

mutual

/-- The same tree with its mappings taken as ones whose keys are distinct. -/
def keyed : Value → Value
  | .list items => .list (keyedItems items)
  | .map entries | .pairs entries => .map (keyedEntries entries)
  | v => v

def keyedItems : List Value → List Value
  | [] => []
  | item :: rest => item.keyed :: keyedItems rest

def keyedEntries : Entries → Entries
  | [] => []
  | (k, v) :: rest => (k, v.keyed) :: keyedEntries rest

end

/-- A tree in which no mapping repeats a key and no list stands directly in another. -/
inductive Settled : Value → Prop where
  | scalar {v : Value} (hl : ∀ inner, v ≠ .list inner) (hp : v.pairs? = none) : Settled v
  | list {items : List Value} (h : ∀ item ∈ items, Settled item)
      (hl : ∀ item ∈ items, ∀ inner, item ≠ .list inner) : Settled (.list items)
  | mapping {v : Value} {entries : Entries} (h : v.pairs? = some entries) (hd : entries.Distinct)
      (hv : ∀ entry ∈ entries, Settled entry.2) : Settled v

/-- A plain tree in normal form. -/
inductive Normal : Value → Prop where
  | scalar {v : Value} (h : PlainScalar v) : Normal v
  | list {items : List Value} (h : ∀ item ∈ items, Normal item)
      (hr : ∀ item ∈ items, item.reference? = none)
      (hl : ∀ item ∈ items, ∀ inner, item ≠ .list inner) : Normal (.list items)
  | map {entries : Entries} (hk : ∀ entry ∈ entries, PlainScalar entry.1) (hd : entries.Distinct)
      (hv : ∀ entry ∈ entries, Normal entry.2) : Normal (.map entries)

section Forms

variable {v : Value} {items : List Value} {entries : Entries}

theorem keyedItems_eq_map (items : List Value) : keyedItems items = items.map keyed := by
  induction items with
  | nil => rfl
  | cons item rest ih => rw [keyedItems, ih, List.map_cons]

theorem keyedEntries_eq_map (entries : Entries) :
    keyedEntries entries = entries.map fun entry => (entry.1, entry.2.keyed) := by
  induction entries with
  | nil => rfl
  | cons entry rest ih => rw [keyedEntries, ih, List.map_cons]

theorem normalEntries_eq_map (entries : Entries) :
    normalEntries entries = entries.map fun entry => (entry.1, entry.2.normal) := by
  induction entries with
  | nil => rfl
  | cons entry rest ih => rw [normalEntries, ih, List.map_cons]

theorem normal_of_pairs (h : v.pairs? = some entries) :
    v.normal = .map (normalEntries entries).settled := by
  cases v <;> simp only [pairs?, Option.some.injEq, reduceCtorEq] at h
  all_goals
    subst h
    rw [normal]

theorem keyed_of_pairs (h : v.pairs? = some entries) : v.keyed = .map (keyedEntries entries) := by
  cases v <;> simp only [pairs?, Option.some.injEq, reduceCtorEq] at h
  all_goals
    subst h
    rw [keyed]

theorem normal_of_other (hl : ∀ inner, v ≠ .list inner) (hp : v.pairs? = none) : v.normal = v := by
  cases v <;> simp only [pairs?, reduceCtorEq] at hp <;> first | rfl | exact absurd rfl (hl _)

theorem keyed_of_other (hl : ∀ inner, v ≠ .list inner) (hp : v.pairs? = none) : v.keyed = v := by
  cases v <;> simp only [pairs?, reduceCtorEq] at hp <;> first | rfl | exact absurd rfl (hl _)

theorem PlainScalar.normal_eq (h : PlainScalar v) : v.normal = v := by
  cases h <;> rfl

theorem normalItems_cons_of_other {item : Value} (h : ∀ inner, item ≠ .list inner) (rest : List Value) :
    normalItems (item :: rest) = item.normal :: normalItems rest := by
  cases item <;> first | rfl | exact absurd rfl (h _)

theorem normalItems_eq_map (h : ∀ item ∈ items, ∀ inner, item ≠ .list inner) :
    normalItems items = items.map normal := by
  induction items with
  | nil => rfl
  | cons item rest ih =>
    rw [normalItems_cons_of_other (h item List.mem_cons_self), List.map_cons]
    rw [ih fun i hi => h i (List.mem_cons_of_mem _ hi)]

/-- What is true of the normal forms of the items that are no lists, and of the items of the others, is
true of the items of a list in normal form. -/
theorem forall_normalItems {p : Value → Prop}
    (h : ∀ item ∈ items, (∀ inner, item ≠ .list inner) → p item.normal)
    (hl : ∀ inner, .list inner ∈ items → ∀ x ∈ normalItems inner, p x) : ∀ x ∈ normalItems items, p x := by
  induction items with
  | nil =>
    intro x hx
    cases hx
  | cons item rest ih =>
    have others := ih (fun i hi => h i (List.mem_cons_of_mem _ hi))
      fun inner hi => hl inner (List.mem_cons_of_mem _ hi)
    intro x hx
    by_cases he : ∃ inner, item = .list inner
    · obtain ⟨inner, rfl⟩ := he
      rw [normalItems] at hx
      rcases List.mem_append.1 hx with hx | hx
      · exact hl inner List.mem_cons_self x hx
      · exact others x hx
    · have hne : ∀ inner, item ≠ .list inner := not_exists.1 he
      rw [normalItems_cons_of_other hne] at hx
      rcases List.mem_cons.1 hx with rfl | hx
      · exact h item List.mem_cons_self hne
      · exact others x hx

/-- A value is a reference in its normal form only if it was one before. -/
theorem reference?_normal (h : v.reference? = none) : v.normal.reference? = none := by
  cases hp : v.pairs? with
  | none =>
    by_cases he : ∃ inner, v = .list inner
    · obtain ⟨inner, rfl⟩ := he
      rfl
    · rw [normal_of_other (not_exists.1 he) hp]
      exact h
  | some entries =>
    have hg : Entries.get? (.text "template") entries = none := by
      cases v <;> simp only [pairs?, Option.some.injEq, reduceCtorEq] at hp
      all_goals
        subst hp
        simpa [reference?] using h
    have hn : Entries.get? (.text "template") (normalEntries entries) = none := by
      rw [normalEntries_eq_map, Entries.get?_map_values, hg]
      rfl
    rw [normal_of_pairs hp, reference?, ← Entries.update_nil_eq_settled, Entries.get?_update, hn]
    rfl

theorem Normal.ne_undefined (h : Normal v) : v ≠ .undefined := by
  rintro rfl
  cases h with
  | scalar h => cases h

/-- Each tree in normal form is plain. -/
theorem Normal.plain (h : Normal v) : Plain v := by
  induction h with
  | scalar h => exact .scalar h
  | list _ hr _ ih => exact .list ih hr
  | map hk _ _ ih => exact .mapping rfl hk ih

theorem Normal.settled (h : Normal v) : Settled v := by
  induction h with
  | scalar h => cases h <;> exact .scalar (by simp) rfl
  | list _ _ hl ih => exact .list ih hl
  | map _ hd _ ih => exact .mapping rfl hd ih

theorem Normal.keyed_eq (h : Normal v) : v.keyed = v := by
  induction h with
  | scalar h => cases h <;> rfl
  | list _ _ _ ih =>
    rw [keyed, keyedItems_eq_map, List.map_congr_left ih, List.map_id']
  | @map entries _ _ _ ih =>
    have same : entries.map (fun entry => (entry.1, entry.2.keyed)) = entries.map fun entry => entry :=
      List.map_congr_left fun entry he => by rw [ih entry he]
    rw [keyed, keyedEntries_eq_map, same, List.map_id']

/-- A settled tree is in normal form already, whatever its mappings are taken as. -/
theorem Settled.normal_eq (h : Settled v) : v.normal = v.keyed := by
  induction h with
  | scalar hl hp => rw [normal_of_other hl hp, keyed_of_other hl hp]
  | @list items _ hl ih =>
    rw [normal, keyed, normalItems_eq_map hl, keyedItems_eq_map, List.map_congr_left ih]
  | @mapping v entries hp hd _ ih =>
    have same : normalEntries entries = keyedEntries entries := by
      rw [normalEntries_eq_map, keyedEntries_eq_map]
      exact List.map_congr_left fun entry he => by rw [ih entry he]
    have distinct : (keyedEntries entries).Distinct := by
      rw [keyedEntries_eq_map]
      exact List.pairwise_map.2 hd
    rw [normal_of_pairs hp, keyed_of_pairs hp, same, Entries.settled_of_distinct distinct]

theorem Plain.normal (h : Plain v) : Normal v.normal := by
  induction h with
  | scalar h =>
    rw [h.normal_eq]
    exact .scalar h
  | @list items _ hr ih =>
    -- The items of a list in the list are items of a tree in normal form.
    have inner (p : Value → Prop) (hp : ∀ xs, Normal (.list xs) → ∀ x ∈ xs, p x) :
        ∀ xs, .list xs ∈ items → ∀ x ∈ normalItems xs, p x := by
      intro xs hm
      have hn : Normal (.list (normalItems xs)) := ih (.list xs) hm
      exact hp _ hn
    refine .list ?_ ?_ ?_
    · refine forall_normalItems (fun item hi _ => ih item hi) (inner _ fun xs hn => ?_)
      cases hn with
      | scalar h => cases h
      | list h => exact h
    · refine forall_normalItems (fun item hi _ => reference?_normal (hr item hi))
        (inner _ fun xs hn => ?_)
      cases hn with
      | scalar h => cases h
      | list _ hr => exact hr
    · refine forall_normalItems (p := fun x => ∀ inner, x ≠ .list inner) (fun item hi hne => ?_)
        (inner _ fun xs hn => ?_)
      · cases hp : item.pairs? with
        | none =>
          rw [normal_of_other hne hp]
          exact hne
        | some entries =>
          rw [normal_of_pairs hp]
          exact fun _ => nofun
      · cases hn with
        | scalar h => cases h
        | list _ _ hl => exact hl
  | @mapping v entries hp hk _ ih =>
    rw [normal_of_pairs hp, normalEntries_eq_map]
    refine .map ?_ (Entries.settled_distinct _) ?_
    · apply Entries.settled_keys
      intro entry he
      obtain ⟨e, hm, rfl⟩ := List.mem_map.1 he
      exact hk e hm
    · apply Entries.settled_values
      intro entry he
      obtain ⟨e, hm, rfl⟩ := List.mem_map.1 he
      exact ih e hm

end Forms

end Value

namespace Expansion

variable {engine : Engine} {keep : Keeper} {mode : Mode} {ctx : Context} {v : Value}

theorem ofKey?_eq_none (h : v.PlainScalar) : Directive.ofKey? v = none := by
  cases h with
  | text h => exact h.ofKey?_eq_none
  | _ => rfl

theorem substituteValue_plainScalar (h : v.PlainScalar) : ctx.substituteValue v = pure v := by
  cases h with
  | text h => exact substituteValue_plain h
  | _ => rfl

theorem expandValue_plainScalar (h : v.PlainScalar) : expandValue engine keep mode ctx v = pure v := by
  cases h with
  | text h => exact expandValue_text h
  | _ => rw [expandValue_scalar rfl rfl rfl, expandScalar_other rfl]

/-- A plain item is no directive. -/
theorem directiveItem?_eq_none (h : v.Plain) : directiveItem? v = none := by
  cases h with
  | scalar h => cases h <;> rfl
  | list => rfl
  | mapping hp hk _ =>
    unfold directiveItem?
    split
    · rename_i key body
      cases hp
      rw [ofKey?_eq_none (hk (key, body) List.mem_cons_self), Option.map_none]
    · rename_i key body
      cases hp
      rw [ofKey?_eq_none (hk (key, body) List.mem_cons_self), Option.map_none]
    · rfl

theorem mapM_eq_pure {α β : Type} {f : α → Run β} {g : α → β} {xs : List α}
    (h : ∀ x ∈ xs, f x = pure (g x)) : xs.mapM f = pure (xs.map g) := by
  induction xs with
  | nil => rfl
  | cons x xs ih =>
    rw [List.mapM_cons, h x List.mem_cons_self, ih fun y hy => h y (List.mem_cons_of_mem _ hy)]
    rfl

/-- Items that are no references stay as they are when they are put in the place of an item. -/
theorem splice_plain {items : List Value} (h : ∀ item ∈ items, item.reference? = none) :
    splice engine keep mode ctx items = pure items := by
  rw [splice, mapM_eq_pure (g := fun item => [item]), pure_bind, ← List.flatMap_def,
    List.flatMap_singleton']
  intro item hi
  simp only [h item hi]

/-- The items of a sequence become those of their normal forms, if each becomes its normal form. -/
theorem expandItems_normal {items : List Value} (h : ∀ item ∈ items, item.Plain)
    (hr : ∀ item ∈ items, item.reference? = none)
    (ih : ∀ item ∈ items, expandValue engine keep .resolving ctx item = pure item.normal) :
    expandItems engine keep .resolving ctx false items = pure (Value.normalItems items) := by
  induction items with
  | nil => rw [expandItems_nil, Value.normalItems]
  | cons item rest ihr =>
    have others : expandItems engine keep .resolving ctx false rest = pure (Value.normalItems rest) :=
      ihr (fun i hi => h i (List.mem_cons_of_mem _ hi)) (fun i hi => hr i (List.mem_cons_of_mem _ hi))
        fun i hi => ih i (List.mem_cons_of_mem _ hi)
    have hp : item.Plain := h item List.mem_cons_self
    rw [expandItems_plain (hr item List.mem_cons_self) (by simp [directiveItem?_eq_none hp]),
      ih item List.mem_cons_self, pure_bind, others]
    cases hp with
    | scalar hs => cases hs <;> rfl
    | @list inner hl hn =>
      have hi : (Value.list inner).normal.Plain := (Value.Plain.list hl hn).normal.plain
      have hrefs : ∀ x ∈ Value.normalItems inner, x.reference? = none := by
        cases hi with
        | scalar h => cases h
        | list _ hr => exact hr
        | mapping h => cases h
      simp only [Value.normal, splice_plain hrefs, pure_bind, Value.normalItems]
    | mapping he =>
      have hne : ∀ inner, item ≠ .list inner := by
        rintro inner rfl
        cases he
      rw [Value.normalItems_cons_of_other hne, Value.normal_of_pairs he]
      rfl

theorem expandEntries_normal {entries : Entries} (hk : ∀ entry ∈ entries, entry.1.PlainScalar)
    (hv : ∀ entry ∈ entries, entry.2.Plain)
    (ih : ∀ entry ∈ entries, expandValue engine keep .resolving ctx entry.2 = pure entry.2.normal)
    (before : Entries) :
    expandEntries engine keep .resolving ctx false before entries =
      pure (before.update (Value.normalEntries entries)) := by
  induction entries generalizing before with
  | nil => rw [expandEntries_nil, Value.normalEntries, Entries.update_nil]
  | cons entry rest ihr =>
    obtain ⟨key, value⟩ := entry
    have hkey : key.PlainScalar := hk (key, value) List.mem_cons_self
    have others := ihr (fun e he => hk e (List.mem_cons_of_mem _ he))
      (fun e he => hv e (List.mem_cons_of_mem _ he)) fun e he => ih e (List.mem_cons_of_mem _ he)
    rw [expandEntries_plain (ofKey?_eq_none hkey), ih (key, value) List.mem_cons_self, pure_bind,
      Value.normalEntries, Entries.update_cons, ← others]
    split
    · rename_i hu
      exact absurd hu (hv (key, value) List.mem_cons_self).normal.ne_undefined
    · rw [substituteValue_plainScalar hkey, pure_bind]

theorem expandValue_normal (h : v.Plain) :
    expandValue engine keep .resolving ctx v = pure v.normal := by
  induction h with
  | scalar h => rw [expandValue_plainScalar h, h.normal_eq]
  | list h hr ih =>
    rw [expandValue_items rfl, expandItems_normal h hr ih]
    rfl
  | mapping hp hk hv ih =>
    rw [expandValue_entries hp (by simp), expandEntries_normal hk hv ih, Value.normal_of_pairs hp,
      Entries.update_nil_eq_settled]
    rfl

/-- The expansion of a plain document gives its normal form, whatever the context: each key at its first
place with its last value, and the items of a list that stands directly in another in the place of that list.
The expansion of the normal form gives it again. It is the document itself if no key is repeated and no list
stands directly in another. Nothing else happens in the session: no counter changes, and no file is read. -/
theorem expand_plain (engine : Engine) (ctx : Context) {v : Value} (h : v.Plain) :
    expand engine ctx v = pure v.normal ∧ expand engine ctx v.normal = pure v.normal ∧
      (v.Settled → v.normal = v.keyed) := by
  refine ⟨expandValue_normal h, ?_, fun hs => hs.normal_eq⟩
  have again : v.normal.normal = v.normal := by
    rw [h.normal.settled.normal_eq, h.normal.keyed_eq]
  have twice : expand engine ctx v.normal = pure v.normal.normal := expandValue_normal h.normal.plain
  rw [twice, again]

/-- Of a repeated key the last value stands in the first place, and an inner list is put into the outer. -/
theorem expand_plain_repeated :
    let written : Value := .pairs [(.text "a", .null), (.text "b", .list [.list [.text "x"], .text "y"]),
      (.text "a", .bool true)]
    let form : Value := .map [(.text "a", .bool true), (.text "b", .list [.text "x", .text "y"])]
    expand {} { directory := "/" } written = pure form ∧
      expand {} { directory := "/" } form = pure form ∧ form.normal = form.keyed := by
  intro written form
  have text (s : String) (h : PlainText s) : (Value.text s).Plain := .scalar (.text h)
  have hw : written.Plain := by
    refine .mapping rfl ?_ ?_
    · simp only [List.forall_mem_cons]
      exact ⟨.text (by decide), .text (by decide), .text (by decide), by simp⟩
    · simp only [List.forall_mem_cons]
      refine ⟨.scalar .null, .list ?_ ?_, .scalar (.bool true), by simp⟩
      · simp only [List.forall_mem_cons]
        refine ⟨.list ?_ ?_, text "y" (by decide), by simp⟩
        · simpa using text "x" (by decide)
        · simp [Value.reference?]
      · simp [Value.reference?]
  have hf : written.normal = form := by
    simp [written, form, Value.normal, Value.normalItems, Value.normalEntries, Entries.settled_cons,
      Entries.settled_nil, Entries.get?, Entries.erase, Value.equal]
  have hs : form.Settled := by
    refine .mapping rfl ?_ ?_
    · simp [Entries.Distinct, Value.equal]
    · simp only [List.forall_mem_cons]
      refine ⟨.scalar (by simp) rfl, .list ?_ (by simp), by simp⟩
      simp only [List.forall_mem_cons]
      exact ⟨.scalar (by simp) rfl, .scalar (by simp) rfl, by simp⟩
  obtain ⟨first, again, -⟩ := expand_plain {} { directory := "/" } hw
  have hp : form.Plain := hf ▸ hw.normal.plain
  rw [hf] at first again
  exact ⟨first, again, (expand_plain {} { directory := "/" } hp).2.2 hs⟩

end Expansion

end PipelineTemplate
