import PipelineTemplate.Proofs.Entries.Settled
import PipelineTemplate.Proofs.Expansion.Fetch

/-!
# References that may remain

A reference remains in a list of an expanded document only if it stood deeper in the value of an expression,
if a mapping became one by the expansion of its entries, or if it is what a template contributes that gives
no list. All other items of lists are resolved.
-/

namespace PipelineTemplate

namespace Value

/-- The values that stand directly in a value. -/
def children : Value → List Value
  | .list items | .tuple items | .aliased items _ => items
  | .map entries | .pairs entries => entries.map Prod.snd
  | _ => []

/-- A value is another, or stands in it at any depth. -/
inductive Within (w : Value) : Value → Prop where
  | refl : Within w w
  | child {c v : Value} (hc : c ∈ v.children) (h : Within w c) : Within w v

theorem Within.of_child {u v c : Value} (h : u.Within v) (hc : c ∈ u.children) : c.Within v := by
  induction h with
  | refl => exact .child hc .refl
  | child hd _ ih => exact .child hd ih

theorem children_of_items? {v : Value} {items : List Value} (h : v.items? = some items) :
    v.children = items := by
  cases v <;> simp only [items?, Option.some.injEq, reduceCtorEq] at h <;> exact h

theorem children_of_pairs? {v : Value} {entries : Entries} (h : v.pairs? = some entries) :
    v.children = entries.map Prod.snd := by
  cases v <;> simp only [pairs?, Option.some.injEq, reduceCtorEq] at h <;> rw [← h] <;> rfl

theorem children_of_other {v : Value} (hi : v.items? = none) (hp : v.pairs? = none) :
    v.children = [] := by
  cases v <;> simp only [items?, pairs?, reduceCtorEq] at hi hp <;> rfl

theorem items?_of_list? {v : Value} {items : List Value} (h : v.list? = some items) :
    v.items? = some items := by
  cases v <;> simp only [list?, Option.some.injEq, reduceCtorEq] at h <;> exact congrArg some h

theorem children_of_list? {v : Value} {items : List Value} (h : v.list? = some items) :
    v.children = items := children_of_items? (items?_of_list? h)

theorem reference?_of_list? {v : Value} {items : List Value} (h : v.list? = some items) :
    v.reference? = none := by
  cases v <;> first | rfl | cases h

/-- The entries that a mapping has when its keys are distinct have values that stand directly in it. -/
theorem forall_entries {q : Value → Prop} {v : Value} (h : ∀ c ∈ v.children, q c) :
    ∀ entry ∈ v.entries?.getD [], q entry.2 := by
  have given {entries : Entries} (hp : v.pairs? = some entries) : ∀ entry ∈ entries, q entry.2 := by
    intro entry he
    apply h
    rw [children_of_pairs? hp]
    exact List.mem_map_of_mem he
  cases v with
  | map entries => exact given rfl
  | pairs entries => exact Entries.forall_update (fun _ he => nomatch he) (given rfl)
  | _ => exact fun _ he => nomatch he

/-- The entries of the items of a list are merged one after the other. -/
theorem forall_merge {q : Value → Prop} {items : List Value} {entries : Entries}
    (h : ∀ entry ∈ entries, q entry.2) (hi : ∀ item ∈ items, ∀ c ∈ item.children, q c) :
    ∀ entry ∈ items.foldl (fun merged item => merged.update ((item.entries?).getD [])) entries, q entry.2 := by
  induction items generalizing entries with
  | nil => exact h
  | cons item rest ih =>
    obtain ⟨hitem, hrest⟩ := List.forall_mem_cons.1 hi
    exact ih (Entries.forall_update h (forall_entries hitem)) hrest

/-- No mapping in a document has an entry that inserts another mapping. -/
def WithoutInsert (document : Value) : Prop :=
  ∀ (mapping : Value) (entries : Entries), mapping.Within document → mapping.pairs? = some entries →
    ∀ entry ∈ entries, Directive.ofKey? entry.1 ≠ some .insert

end Value

namespace Expansion

/-- The body of a directive stands in its item. -/
theorem mem_children_of_directiveItem? {item body : Value} {d : Directive}
    (h : directiveItem? item = some (d, body)) : body ∈ item.children := by
  unfold directiveItem? at h
  split at h
  · obtain ⟨_, _, h⟩ := Option.map_eq_some_iff.1 h
    cases h
    exact List.mem_singleton_self _
  · obtain ⟨_, _, h⟩ := Option.map_eq_some_iff.1 h
    cases h
    exact List.mem_singleton_self _
  · cases h

/-- The expansion of a source, from one session to another. -/
structure Passage where
  engine : Engine
  source : Value
  first : Session
  last : Session

namespace Passage

/-- What becomes of the parameters of references that are kept. -/
abbrev keep (p : Passage) : Keeper := keepWithin p.engine p.engine.nesting

variable (p : Passage)

/-- The documents that are used: the source and the templates that are found on the way. -/
inductive Used : Value → Prop where
  | source : Used p.source
  | template {ctx : Context} {located : Template.Located} {document : Value}
      (found : p.first.Passes p.last (.found ctx located.reference located.path))
      (read : located.read (p.first.world.readText located.path) = .ok document) : Used document

/-- A context in which parts of documents are expanded on the way. -/
def Enters (ctx : Context) : Prop := p.first.Passes p.last (.entered ctx)

/-- The references that may remain in the lists of the expanded source. -/
inductive Remains : Value → Prop where
  /-- It stood in a list strictly inside the value of an expression that a written text consists of. -/
  | inherited {ctx : Context} {document v part list x : Value} {text : String} {s t : Session}
      {items : List Value} (entered : p.Enters ctx) (used : p.Used document)
      (written : (Value.text text).Within document) (whole : isWholeExpression (Text.strip text) = true)
      (value : (ctx.evaluateText (expressionBody (Text.strip text))).start s = (.ok v, t))
      (inside : part ∈ v.children) (deeper : list.Within part) (here : list.list? = some items)
      (item : x ∈ items) : Remains x
  /-- It is what became of a written mapping that is no reference. -/
  | merged {ctx : Context} {document mapping x : Value} {s t : Session} (entered : p.Enters ctx)
      (used : p.Used document) (written : mapping.Within document) (plain : mapping.reference? = none)
      (shape : mapping.isMapping = true)
      (became : (expand p.engine ctx mapping).start s = (.ok x, t)) : Remains x
  /-- It is a template whose document became a mapping, or what stands in that under the key of a body. -/
  | contributed {ctx : Context} {document v x : Value} {s t : Session} {entries : Entries}
      (entered : p.Enters ctx) (used : p.Used document)
      (became : (expand p.engine ctx (withoutParameters document)).start s = (.ok v, t))
      (shape : v.entries? = some entries)
      (alone : x = .map (entries.erase (.text "parameters")) ∨
        ∃ key ∈ Template.bodyKeys, (entries.erase (.text "parameters")).get? (.text key) = some x) :
      Remains x

/-- A value that is no reference, or one that may remain. -/
def Resolved (x : Value) : Prop := x.reference? = none ∨ p.Remains x

/-- The items of all lists in a value are resolved. -/
def Materialized (v : Value) : Prop :=
  ∀ (list : Value) (items : List Value), list.Within v → list.list? = some items →
    ∀ x ∈ items, p.Resolved x

/-- Items of a list that are resolved and materialized. -/
def AllResolved (items : List Value) : Prop := ∀ x ∈ items, p.Resolved x ∧ p.Materialized x

/-- The values of entries are materialized. -/
def AllMaterialized (entries : Entries) : Prop := ∀ entry ∈ entries, p.Materialized entry.2

/-- A part of a document that is used. -/
def Written (node : Value) : Prop := ∃ document, p.Used document ∧ node.Within document

variable {p}

/-- The document of a template that is admitted on the way is used. -/
theorem used_of_start_fetch {ctx : Context} {name : String} {s t : Session} {a : Admitted p.engine ctx}
    (hs : p.first.Before s) (ha : (fetch p.engine ctx name).start s = (.ok a, t)) (hl : t.Before p.last) :
    p.Used a.document := by
  have h := fetched p.engine ctx name s
  rw [ha] at h
  cases h with
  | read _ read _ trail =>
    rw [hs.world] at read
    exact .template (Session.passes_of_between hs trail hl) read

/-- A value is materialized if what stands directly in it is, and it is no list or its items are resolved. -/
theorem materialized_of {v : Value} (h : ∀ items, v.list? = some items → ∀ x ∈ items, p.Resolved x)
    (hc : ∀ c ∈ v.children, p.Materialized c) : p.Materialized v := by
  intro list items hw hl
  cases hw with
  | refl => exact h items hl
  | child hm hw => exact hc _ hm list items hw hl

theorem Materialized.child {v c : Value} (h : p.Materialized v) (hc : c ∈ v.children) :
    p.Materialized c := fun list items hw hl => h list items (.child hc hw) hl

theorem materialized_list {items : List Value} (h : p.AllResolved items) : p.Materialized (.list items) := by
  refine materialized_of ?_ fun c hc => (h c hc).2
  intro xs hl x hx
  cases hl
  exact (h x hx).1

theorem Materialized.items {v : Value} (h : p.Materialized v) : p.AllResolved (v.list?.getD []) := by
  cases hl : v.list? with
  | none => exact fun x hx => nomatch hx
  | some items =>
    intro x hx
    refine ⟨h v items .refl hl x hx, h.child ?_⟩
    rw [Value.children_of_list? hl]
    exact hx

theorem allResolved_nil : p.AllResolved [] := fun _ hx => nomatch hx

theorem allResolved_singleton {x : Value} (hr : p.Resolved x) (hm : p.Materialized x) :
    p.AllResolved [x] := by
  intro y hy
  obtain rfl := List.mem_singleton.1 hy
  exact ⟨hr, hm⟩

theorem materialized_map {entries : Entries} (h : p.AllMaterialized entries) :
    p.Materialized (.map entries) := by
  refine materialized_of (fun _ hl => nomatch hl) fun c hc => ?_
  obtain ⟨entry, he, rfl⟩ := List.mem_map.1 hc
  exact h entry he

theorem AllMaterialized.erase {entries : Entries} (h : p.AllMaterialized entries) (k : Value) :
    p.AllMaterialized (entries.erase k) := Entries.forall_erase h k

theorem Materialized.entries {v : Value} (h : p.Materialized v) :
    p.AllMaterialized (v.entries?.getD []) := Value.forall_entries fun _ hc => h.child hc

/-- What the value of an expression in a written text holds deeper than its own items may remain. -/
theorem materialized_inherited {ctx : Context} {text : String} {s t : Session} {v : Value}
    (entered : p.Enters ctx) (written : p.Written (.text text))
    (whole : isWholeExpression (Text.strip text) = true)
    (value : (ctx.evaluateText (expressionBody (Text.strip text))).start s = (.ok v, t)) :
    ∀ c ∈ v.children, p.Materialized c := by
  obtain ⟨document, used, hw⟩ := written
  intro c hc list items hl hi x hx
  exact .inr (.inherited entered used hw whole value hc hl hi hx)

/-- The first body of a template is the value of one of the keys, or a list of this value alone. -/
theorem exists_of_bodyUnder {entries : Entries} {keys : List String} {body : Value}
    (h : Template.bodyUnder entries keys = some body) :
    ∃ key ∈ keys, ∃ v, entries.get? (.text key) = some v ∧
      body = if v.list?.isSome then v else .list [v] := by
  induction keys with
  | nil => cases h
  | cons key keys ih =>
    have later (hk : Template.bodyUnder entries keys = some body) :
        ∃ k ∈ key :: keys, ∃ v, entries.get? (.text k) = some v ∧
          body = if v.list?.isSome then v else .list [v] := by
      obtain ⟨k, hm, v, hv⟩ := ih hk
      exact ⟨k, List.mem_cons_of_mem _ hm, v, hv⟩
    unfold Template.bodyUnder at h
    split at h
    · exact later h
    · exact later h
    · rename_i v _ hv
      exact ⟨key, List.mem_cons_self, v, hv, (Option.some.inj h).symm⟩

/-- What a template contributes is a list. -/
theorem reference?_contribution (v : Value) : (Template.contribution v).reference? = none := by
  have list {w : Value} (h : w.list?.isSome = true) : w.reference? = none := by
    obtain ⟨items, hl⟩ := Option.isSome_iff_exists.1 h
    exact Value.reference?_of_list? hl
  unfold Template.contribution
  split
  · exact list ‹_›
  · cases hb : Template.bodyUnder ((v.entries?.getD []).erase (.text "parameters")) Template.bodyKeys with
    | none =>
      simp only [hb, Option.getD_none]
      rfl
    | some body =>
      obtain ⟨_, -, w, -, rfl⟩ := exists_of_bodyUnder hb
      simp only [hb, Option.getD_some]
      split
      · exact list ‹_›
      · rfl

/-- The items of what a template contributes are resolved. -/
theorem materialized_contribution {ctx : Context} {document v : Value} {s t : Session}
    (entered : p.Enters ctx) (used : p.Used document)
    (became : (expand p.engine ctx (withoutParameters document)).start s = (.ok v, t))
    (h : p.Materialized v) : p.Materialized (Template.contribution v) := by
  have nothing : p.Materialized (.list []) := materialized_list allResolved_nil
  unfold Template.contribution
  split
  · exact h
  · cases hs : v.entries? with
    | none => exact nothing
    | some entries =>
      have body : p.AllMaterialized (entries.erase (.text "parameters")) := by
        have given := h.entries
        rw [hs] at given
        exact given.erase _
      simp only [Option.getD_some]
      cases hb : Template.bodyUnder (entries.erase (.text "parameters")) Template.bodyKeys with
      | none =>
        rw [Option.getD_none]
        split
        · exact nothing
        · have remains : p.Remains (.map (entries.erase (.text "parameters"))) :=
            .contributed entered used became hs (.inl rfl)
          exact materialized_list (allResolved_singleton (.inr remains) (materialized_map body))
      | some w =>
        rw [Option.getD_some]
        obtain ⟨key, hk, u, hu, rfl⟩ := exists_of_bodyUnder hb
        have hm : p.Materialized u := Entries.get?_of_all body hu
        split
        · exact hm
        · have remains : p.Remains u := .contributed entered used became hs (.inr ⟨key, hk, hu⟩)
          exact materialized_list (allResolved_singleton (.inr remains) hm)

theorem Written.child {node c : Value} (h : p.Written node) (hc : c ∈ node.children) : p.Written c := by
  obtain ⟨document, hu, hw⟩ := h
  exact ⟨document, hu, hw.of_child hc⟩

end Passage

end Expansion

end PipelineTemplate
