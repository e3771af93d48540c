import PipelineTemplate.Proofs.Value.Inert

/-!
# Values in JSON form

The values that JSON text can say: null, truth values, finite numbers, texts, lists, and mappings whose
keys are distinct texts. The plain form of a value without callables is one of them, and values in JSON
form are their own plain form.
-/

namespace PipelineTemplate.Value

inductive JsonForm : Value → Prop where
  | null : JsonForm .null
  | bool (b : Bool) : JsonForm (.bool b)
  | int (n : Int) : JsonForm (.int n)
  | float {x : Number.Binary64} (finite : x.isFinite = true) : JsonForm (.number (.float x))
  | text (s : String) : JsonForm (.text s)
  | list {items : List Value} (members : ∀ v ∈ items, JsonForm v) : JsonForm (.list items)
  | map {entries : Entries} (keys : ∀ entry ∈ entries, ∃ s, entry.1 = .text s)
      (distinct : entries.Distinct) (values : ∀ entry ∈ entries, JsonForm entry.2) : JsonForm (.map entries)

theorem ofPairs_eq_settled (entries : Entries) : Entries.ofPairs entries = entries.settled :=
  Entries.update_nil_eq_settled entries

/-- What is left of an entry in a plain mapping: its key as a text, unless its value is undefined. -/
def kept? (entry : Value × Value) : Option (Value × Value) :=
  if entry.2.isUndefined then none else some (.text entry.1.toText, entry.2)

theorem plainMapping_eq (entries : Entries) :
    plainMapping entries = Entries.ofPairs ((Entries.ofPairs entries).filterMap kept?) := rfl

theorem kept?_eq_some {entry kept : Value × Value} (h : kept? entry = some kept) :
    entry.2.isUndefined = false ∧ kept = (.text entry.1.toText, entry.2) := by
  unfold kept? at h
  split at h
  · cases h
  · next hu => exact ⟨Bool.eq_false_iff.2 hu, (Option.some.inj h).symm⟩

/-- The entries of a plain mapping have texts for keys, no two of them the same, and those of the values
that are not undefined. -/
theorem jsonForm_plainMapping {entries : Entries}
    (h : ∀ entry ∈ entries, entry.2.isUndefined = false → entry.2.JsonForm) :
    JsonForm (.map (plainMapping entries)) := by
  have hdefined : ∀ entry ∈ Entries.ofPairs entries, entry.2.isUndefined = false → entry.2.JsonForm :=
    Entries.forall_update (p := fun v => v.isUndefined = false → v.JsonForm) (List.forall_mem_nil _) h
  have hkept : ∀ entry ∈ (Entries.ofPairs entries).filterMap kept?,
      (∃ s, entry.1 = .text s) ∧ entry.2.JsonForm := by
    intro entry he
    obtain ⟨source, hm, hsource⟩ := List.mem_filterMap.1 he
    obtain ⟨hu, rfl⟩ := kept?_eq_some hsource
    exact ⟨⟨_, rfl⟩, hdefined source hm hu⟩
  rw [plainMapping_eq, ofPairs_eq_settled _]
  refine .map ?_ (Entries.settled_distinct _) ?_
  · exact Entries.settled_keys (p := fun key => ∃ s, key = .text s) fun entry he => (hkept entry he).1
  · exact Entries.settled_values fun entry he => (hkept entry he).2

/-- The plain form of a value without callables. -/
theorem Inert.jsonForm {v : Value} (h : v.Inert) : v.toPlain.JsonForm := by
  induction h with
  | @intro v hv _ ih =>
    have hmapping {entries : Entries} (he : ∀ entry ∈ entries, entry.2.toPlain.JsonForm) :
        JsonForm (.map (plainMapping (plainEntries entries))) := by
      refine jsonForm_plainMapping fun entry hm hu => ?_
      rw [plainEntries_eq_map] at hm
      obtain ⟨e, heall, rfl⟩ := List.mem_map.1 hm
      simp only at hu ⊢
      split at hu
      · cases hu
      · next hdefined =>
        rw [if_neg hdefined]
        exact he e heall
    cases v with
    | callable f => exact absurd rfl (hv f)
    | null | undefined => exact .null
    | bool b => exact .bool b
    | text s => exact .text s
    | date d => exact .text _
    | time t => exact .text _
    | number n =>
      cases n with
      | int n => exact .int n
      | float x =>
        rw [toPlain]
        split
        · next hfinite => exact .float hfinite
        · exact .null
    | list items | tuple items =>
      rw [toPlain, plainItems_eq_map]
      exact .list (List.forall_mem_map.2 ih)
    | aliased items aliases =>
      rw [toPlain, plainItems_eq_map]
      exact .list (List.forall_mem_map.2 fun item hm => ih item (List.mem_append_left _ hm))
    | map entries | pairs entries =>
      rw [toPlain]
      exact hmapping fun entry he => ih _ (List.mem_map_of_mem he)
    | reference template parameters =>
      have htemplate : template.toPlain.JsonForm := ih template (by simp [Value.held])
      have hparameters : parameters.toPlain.JsonForm := ih parameters (by simp [Value.held])
      rw [toPlain]
      split
      · exact .map (by simp) (List.pairwise_singleton _ _) (List.forall_mem_singleton.2 htemplate)
      · refine .map (by simp) ?_ ?_
        · refine List.pairwise_pair.2 (Bool.eq_false_iff.2 fun h => ?_)
          exact absurd (Value.text.inj (Value.text_equal.1 h)) (by decide)
        · exact List.forall_mem_cons.2 ⟨htemplate, List.forall_mem_singleton.2 hparameters⟩

theorem JsonForm.defined {v : Value} (h : v.JsonForm) : v.isUndefined = false := by
  cases h <;> rfl

/-- A value in JSON form is plain already. -/
theorem JsonForm.toPlain_eq {v : Value} (h : v.JsonForm) : v.toPlain = v := by
  induction h with
  | null | bool | int | text => rfl
  | float finite => rw [toPlain, if_pos finite]
  | @list items _ ih =>
    rw [toPlain, plainItems_eq_map, List.map_congr_left ih, List.map_id']
  | @map entries keys distinct values ih =>
    have hdefined : ∀ entry ∈ entries, entry.2.isUndefined = false := fun entry he => (values entry he).defined
    have hvalues : plainEntries entries = entries := by
      rw [plainEntries_eq_map]
      refine (List.map_congr_left fun entry he => ?_).trans (List.map_id' entries)
      rw [hdefined entry he, ih entry he]
      rfl
    have hkept : entries.filterMap kept? = entries := by
      refine (List.filterMap_congr fun entry he => ?_).trans List.filterMap_some
      obtain ⟨s, hs⟩ := keys entry he
      rw [kept?, hdefined entry he, hs]
      simp only [Bool.false_eq_true, if_false, toText, ← hs]
    have hsettled : Entries.ofPairs entries = entries :=
      (ofPairs_eq_settled entries).trans (Entries.settled_of_distinct distinct)
    rw [toPlain, hvalues, plainMapping_eq, hsettled, hkept, hsettled]

end PipelineTemplate.Value
