import PipelineTemplate.Value.Json
import PipelineTemplate.Value.Member
import PipelineTemplate.Proofs.Entries.Settled

/-!
# Values without callables

A value that holds no callable has a JSON text, and what is read from it by key or index holds none.
-/

namespace PipelineTemplate

namespace Value

/-- The values that stand in a value, under its aliases as well. -/
def held : Value → List Value
  | .list items | .tuple items => items
  | .aliased items aliases => items ++ aliases.map Prod.snd
  | .map entries | .pairs entries => entries.map Prod.snd
  | .reference template parameters => [template, parameters]
  | _ => []

/-- No callable is a value or stands in it at any depth. -/
inductive Inert : Value → Prop where
  | intro {v : Value} (notCallable : ∀ f, v ≠ .callable f) (held : ∀ c ∈ v.held, Inert c) : Inert v

namespace Inert

theorem notCallable {v : Value} (h : v.Inert) (f : Callable) : v ≠ .callable f := by
  cases h with
  | intro hv _ => exact hv f

theorem of_held {v c : Value} (h : v.Inert) (hc : c ∈ v.held) : c.Inert := by
  cases h with
  | intro _ hh => exact hh c hc

theorem null : Inert .null := .intro nofun nofun
theorem undefined : Inert .undefined := .intro nofun nofun
theorem bool (b : Bool) : Inert (.bool b) := .intro nofun nofun
theorem number (n : Number.Numeric) : Inert (.number n) := .intro nofun nofun
theorem text (s : String) : Inert (.text s) := .intro nofun nofun

theorem list {items : List Value} (h : ∀ item ∈ items, item.Inert) : Inert (.list items) := .intro nofun h

theorem map {entries : Entries} (h : ∀ entry ∈ entries, entry.2.Inert) : Inert (.map entries) :=
  .intro nofun (List.forall_mem_map.2 h)

theorem pairs {v : Value} {entries : Entries} (h : v.Inert) (hp : v.pairs? = some entries) :
    ∀ entry ∈ entries, entry.2.Inert := by
  intro entry he
  refine h.of_held ?_
  cases v <;> simp only [pairs?, Option.some.injEq, reduceCtorEq] at hp <;> subst hp <;>
    exact List.mem_map_of_mem he

theorem getD {o : Option Value} (h : ∀ v, o = some v → v.Inert) : (o.getD .undefined).Inert := by
  cases o with
  | none => exact undefined
  | some v => exact h v rfl

theorem or {o p : Option Value} (ho : ∀ v, o = some v → v.Inert) (hp : ∀ v, p = some v → v.Inert) :
    ∀ v, o.or p = some v → v.Inert := by
  intro v hv
  obtain hv | ⟨-, hv⟩ := Option.or_eq_some_iff.1 hv
  · exact ho v hv
  · exact hp v hv

theorem get? {entries : Entries} (h : ∀ entry ∈ entries, entry.2.Inert) (key : Value) :
    ∀ v, entries.get? key = some v → v.Inert :=
  fun _ hv => Entries.get?_of_all h hv

end Inert

/-! ## Members -/

/-- What is read from a value by key or index: something that stands in it, a number, a text or nothing. -/
inductive Offers (target : Value) : Value → Prop where
  | undefined : Offers target .undefined
  | number (n : Number.Numeric) : Offers target (.number n)
  | text (s : String) : Offers target (.text s)
  | held {v : Value} (h : v ∈ target.held) : Offers target v

namespace Offers

variable {target : Value}

theorem getD {o : Option Value} (h : ∀ v, o = some v → target.Offers v) : target.Offers (o.getD .undefined) := by
  cases o with
  | none => exact undefined
  | some v => exact h v rfl

theorem of_get? {entries : Entries} {key v : Value} (h : entries.get? key = some v) : (Value.map entries).Offers v :=
  Entries.get?_of_all (fun _ he => held (List.mem_map_of_mem he)) h

theorem itemAt {items : List Value} (h : ∀ item ∈ items, target.Offers item) (key : Value) :
    target.Offers (Value.itemAt items key) := by
  unfold Value.itemAt
  split
  · exact number _
  · apply getD
    intro v hv
    obtain ⟨i, -, hi⟩ := Option.bind_eq_some_iff.1 hv
    exact h v (List.mem_of_getElem? hi)

theorem entryAt {entries : Entries} (h : ∀ entry ∈ entries, target.Offers entry.2) (key : Value) :
    target.Offers (Value.entryAt entries key) := by
  have hget (k v : Value) (hv : entries.get? k = some v) : target.Offers v := Entries.get?_of_all h hv
  unfold Value.entryAt
  split
  · exact hget key _ ‹_›
  · split
    · apply getD
      intro v hv
      obtain ⟨n, -, hn⟩ := Option.bind_eq_some_iff.1 hv
      exact hget _ v hn
    · exact getD (hget _)
    · exact undefined

theorem mem_of_lookup {aliases : List (String × Value)} {name : String} {v : Value}
    (h : aliases.lookup name = some v) : v ∈ aliases.map Prod.snd := by
  obtain ⟨before, after, rfl, -⟩ := List.lookup_eq_some_iff.1 h
  simp

theorem member (target key : Value) : target.Offers (target.member key) := by
  unfold Value.member
  split
  · exact undefined
  cases target with
  | map entries | pairs entries => exact entryAt (fun entry he => held (List.mem_map_of_mem he)) key
  | list items | tuple items => exact itemAt (fun item hi => held hi) key
  | aliased items aliases =>
    have hitems : ∀ item ∈ items, (Value.aliased items aliases).Offers item := by
      intro item hi
      exact held (List.mem_append_left _ hi)
    cases key with
    | text s =>
      simp only
      split
      · exact itemAt hitems _
      · exact itemAt hitems _
      · next v hv =>
        exact held (List.mem_append_right _ (mem_of_lookup hv))
    | _ => exact itemAt hitems _
  | text s =>
    apply itemAt
    intro item hi
    obtain ⟨c, -, rfl⟩ := List.mem_map.1 hi
    exact text _
  | reference template parameters =>
    simp only
    split
    · exact held (by simp [Value.held])
    · exact held (by simp [Value.held])
    · exact undefined
  | _ => exact undefined

end Offers

/-- What is read from a value holds no callable if the value holds none. -/
theorem Inert.member {target : Value} (h : target.Inert) (key : Value) : (target.member key).Inert := by
  have inert {v : Value} (ho : target.Offers v) : v.Inert := by
    cases ho with
    | undefined => exact undefined
    | number n => exact number n
    | text s => exact text s
    | held hv => exact h.of_held hv
  exact inert (.member target key)

/-! ## JSON -/

theorem plainItems_eq_map (items : List Value) : plainItems items = items.map toPlain := by
  induction items with
  | nil => rfl
  | cons v vs ih => rw [plainItems, ih, List.map_cons]

theorem plainEntries_eq_map (entries : Entries) : plainEntries entries =
    entries.map fun entry => (entry.1, if entry.2.isUndefined then .undefined else entry.2.toPlain) := by
  induction entries with
  | nil => rfl
  | cons entry rest ih => rw [plainEntries, ih, List.map_cons]

/-- A value has a JSON text, at whatever depth. -/
def HasJson (v : Value) : Prop := ∀ indent, (jsonText? indent v).isSome = true

theorem jsonItems?_isSome {items : List Value} (h : ∀ v ∈ items, v.HasJson) (indent : Option Nat) :
    (jsonItems? indent items).isSome = true := by
  induction items with
  | nil => rfl
  | cons v vs ih =>
    obtain ⟨hv, hvs⟩ := List.forall_mem_cons.1 h
    obtain ⟨s, hs⟩ := Option.isSome_iff_exists.1 (hv indent)
    obtain ⟨ss, hss⟩ := Option.isSome_iff_exists.1 (ih hvs)
    rw [jsonItems?, hs, hss]
    rfl

theorem jsonEntries?_isSome {entries : Entries} (h : ∀ entry ∈ entries, entry.2.HasJson) (indent : Option Nat) :
    (jsonEntries? indent entries).isSome = true := by
  induction entries with
  | nil => rfl
  | cons entry rest ih =>
    obtain ⟨hv, hrest⟩ := List.forall_mem_cons.1 h
    obtain ⟨s, hs⟩ := Option.isSome_iff_exists.1 (hv indent)
    obtain ⟨ss, hss⟩ := Option.isSome_iff_exists.1 (ih hrest)
    rw [jsonEntries?, hs, hss]
    rfl

theorem HasJson.list {items : List Value} (h : ∀ v ∈ items, v.HasJson) : HasJson (.list items) := by
  intro indent
  rw [jsonText?, Option.isSome_map]
  exact jsonItems?_isSome h _

theorem HasJson.map {entries : Entries} (h : ∀ entry ∈ entries, entry.2.HasJson) : HasJson (.map entries) := by
  intro indent
  rw [jsonText?, Option.isSome_map]
  exact jsonEntries?_isSome h _

/-- The entries that are left of a mapping have JSON texts if those that are not undefined have. -/
theorem hasJson_plainMapping {entries : Entries}
    (h : ∀ entry ∈ entries, entry.2.isUndefined = false → entry.2.HasJson) :
    ∀ entry ∈ plainMapping entries, entry.2.HasJson := by
  have hsettled : ∀ entry ∈ Entries.ofPairs entries, entry.2.isUndefined = false → entry.2.HasJson :=
    Entries.forall_update (p := fun v => v.isUndefined = false → v.HasJson) (List.forall_mem_nil _) h
  refine Entries.forall_update (p := HasJson) (List.forall_mem_nil _) fun entry he => ?_
  obtain ⟨⟨k, v⟩, hm, hkeep⟩ := List.mem_filterMap.1 he
  by_cases hu : v.isUndefined = true
  · simp [hu] at hkeep
  · simp only [hu, Bool.false_eq_true, if_false, Option.some.injEq] at hkeep
    subst hkeep
    exact hsettled (k, v) hm (Bool.eq_false_iff.2 hu)

theorem Inert.hasJson {v : Value} (h : v.Inert) : v.toPlain.HasJson := by
  induction h with
  | @intro v hv _ ih =>
    have hmapping {entries : Entries} (he : ∀ entry ∈ entries, entry.2.toPlain.HasJson) :
        HasJson (.map (plainMapping (plainEntries entries))) := by
      refine .map (hasJson_plainMapping fun entry hm hu => ?_)
      rw [plainEntries_eq_map] at hm
      obtain ⟨e, heall, rfl⟩ := List.mem_map.1 hm
      simp only at hu ⊢
      split at hu
      · cases hu
      · next hdefined =>
        rw [if_neg hdefined]
        exact he e heall
    cases v with
    | callable f => exact absurd rfl (hv f)
    | number n =>
      cases n with
      | int n => exact fun _ => rfl
      | float x =>
        rw [toPlain]
        split <;> exact fun _ => rfl
    | list items | tuple items =>
      rw [toPlain, plainItems_eq_map]
      exact .list (List.forall_mem_map.2 ih)
    | aliased items aliases =>
      rw [toPlain, plainItems_eq_map]
      exact .list (List.forall_mem_map.2 fun item hm => ih item (List.mem_append_left _ hm))
    | map entries | pairs entries =>
      rw [toPlain]
      exact hmapping fun entry he => ih _ (List.mem_map_of_mem he)
    | reference template parameters =>
      rw [toPlain]
      have htemplate : template.toPlain.HasJson := ih template (by simp [Value.held])
      have hparameters : parameters.toPlain.HasJson := ih parameters (by simp [Value.held])
      refine .map (List.forall_mem_cons.2 ⟨htemplate, ?_⟩)
      split
      · exact List.forall_mem_nil _
      · exact List.forall_mem_singleton.2 hparameters
    | _ => exact fun _ => rfl

theorem Inert.toIndentedJson {v : Value} (h : v.Inert) : ∃ s, v.toIndentedJson? = some s :=
  Option.isSome_iff_exists.1 (h.hasJson (some 0))

end Value

end PipelineTemplate
