import PipelineTemplate.Proofs.Resources.Outcome

/-!
# Criteria of supplied repositories

A supplied repository with criteria is judged by what stands under its name at its turn. Main statement:
where it counts, the merge is that without its criteria, and where it does not, that without the repository.
Repositories of other names do not matter. It is judged as by the declared repository alone unless a supplied
repository of its name comes before it: one that gives a field which the criteria look at, or that brings
the name in.
-/

namespace PipelineTemplate.Repository

variable {a : String} {r o : Repository} {rs : List Repository} {fields fields' criteria : Entries}

/-- The repository as it would be supplied without criteria. -/
def unconditional (r : Repository) : Repository := { r with criteria := [] }

/-- Some criterion is not met that expects a value which is neither null nor an empty text. -/
def Fails (fields criteria : Entries) : Prop :=
  ∃ key expected, (key, expected) ∈ criteria ∧ expected ≠ .null ∧ expected ≠ .text "" ∧
    ∀ v, fields.get? key = some v → v.equal expected = false

theorem satisfies_eq_false : (Repository.mk fields []).satisfies criteria = false ↔ Fails fields criteria := by
  unfold satisfies Fails
  rw [List.all_eq_false]
  constructor
  · rintro ⟨⟨key, expected⟩, hmem, hfalse⟩
    refine ⟨key, expected, hmem, ?_⟩
    dsimp only at hfalse
    split at hfalse
    · exact absurd rfl hfalse
    · exact absurd rfl hfalse
    · next hnull hempty =>
      refine ⟨hnull, hempty, fun v hv => ?_⟩
      rw [hv, Option.any_some] at hfalse
      simpa using hfalse
  · rintro ⟨key, expected, hmem, hnull, hempty, hfields⟩
    refine ⟨(key, expected), hmem, ?_⟩
    dsimp only
    split
    · exact absurd rfl hnull
    · exact absurd rfl hempty
    · cases hv : fields.get? key with
      | none => simp
      | some v => simp [hfields v hv]

/-- Fields that give the same to the keys of criteria fail them together. -/
theorem Fails.congr (h : ∀ criterion ∈ criteria, fields.get? criterion.1 = fields'.get? criterion.1) :
    Fails fields criteria ↔ Fails fields' criteria := by
  have himp {fs fs' : Entries} (h : ∀ criterion ∈ criteria, fs.get? criterion.1 = fs'.get? criterion.1) :
      Fails fs criteria → Fails fs' criteria := by
    rintro ⟨key, expected, hmem, hnull, hempty, hfails⟩
    exact ⟨key, expected, hmem, hnull, hempty, h (key, expected) hmem ▸ hfails⟩
  exact ⟨himp h, himp fun criterion hc => (h criterion hc).symm⟩

theorem counts_eq_false (ho : o.name? = some a) :
    counts rs o = false ↔ ∃ fields, standing? rs a = some fields ∧ Fails fields o.criteria := by
  rw [counts, ho, Option.bind_some]
  cases standing? rs a with
  | none => simp
  | some fields => simp [satisfies_eq_false]

/-! ## At its turn -/

theorem merge_append {declared before after : List Repository} (h : Told (declared ++ before)) :
    merge declared (before ++ after) =
      (after.foldl (mergeOne true) (slots (declared ++ counted declared before))).map
        fun (_, fields) => { fields } := by
  rw [merge, foldl_declared_nil h.left, List.foldl_append, foldl_supplied h]

/-- Without criteria a supplied repository is merged like a declared one. -/
theorem mergeOne_unconditional (merged : List (String × Entries)) (o : Repository) :
    mergeOne true merged o.unconditional = mergeOne false merged o := by
  have hkey : o.unconditional.mergeKey merged.length = o.mergeKey merged.length := rfl
  have hfields : o.unconditional.ownFields = o.ownFields := rfl
  rw [mergeOne_eq, mergeOne_eq, hkey, hfields]
  cases merged.lookup (o.mergeKey merged.length) with
  | none => rfl
  | some existing => simp [unconditional, satisfies_nil]

/-- A supplied repository that counts is merged as if it had no criteria, and one that does not count as if
it were not there. -/
theorem merge_criteria {declared before after : List Repository}
    (h : Told (declared ++ (before ++ o :: after))) :
    merge declared (before ++ o :: after) =
      if counts (declared ++ counted declared before) o then merge declared (before ++ o.unconditional :: after)
      else merge declared (before ++ after) := by
  have hbefore : Told (declared ++ before) := by
    rw [← List.append_assoc] at h
    exact h.left
  have hturn : Told ((declared ++ counted declared before) ++ [o]) := by
    refine h.of_mem fun s hs => ?_
    rcases List.mem_append.1 hs with hs | hs
    · have hmem := mem_of_mem_taken hs
      simp only [List.mem_append, List.mem_cons] at hmem ⊢
      tauto
    · obtain rfl := List.mem_singleton.1 hs
      simp
  rw [merge_append hbefore, merge_append hbefore, merge_append hbefore, List.foldl_cons, List.foldl_cons]
  cases hcounts : counts (declared ++ counted declared before) o with
  | true =>
    rw [if_pos rfl, mergeOne_unconditional, mergeOne_slots true hturn fun _ => hcounts,
      mergeOne_slots false hturn nofun]
  | false => rw [if_neg Bool.false_ne_true, mergeOne_passed hturn hcounts]

/-! ## Repositories of one name -/

theorem standing?_filter (rs : List Repository) (a : String) :
    standing? (rs.filter (·.name? = some a)) a = standing? rs a := by
  simp only [standing?, List.filter_filter, Bool.and_self]

/-- Which repositories of a name count is settled among those of the name. -/
theorem filter_counted (rs xs : List Repository) (a : String) :
    (counted rs xs).filter (·.name? = some a) =
      counted (rs.filter (·.name? = some a)) (xs.filter (·.name? = some a)) := by
  induction xs generalizing rs with
  | nil => rfl
  | cons x xs ih =>
    by_cases hname : x.name? = some a
    · have hcounts : counts (rs.filter (·.name? = some a)) x = counts rs x := by
        rw [counts, counts, hname, Option.bind_some, Option.bind_some, standing?_filter]
      rw [counted, List.filter_cons_of_pos (by simpa using hname), counted, hcounts]
      split
      · rw [List.filter_cons_of_pos (by simpa using hname), ih, List.filter_append,
          List.filter_cons_of_pos (by simpa using hname), List.filter_nil]
      · exact ih rs
    · rw [counted, List.filter_cons_of_neg (by simpa using hname)]
      split
      · rw [List.filter_cons_of_neg (by simpa using hname), ih, List.filter_append,
          List.filter_cons_of_neg (by simpa using hname), List.filter_nil, List.append_nil]
      · exact ih rs

section Turn

variable {declared before : List Repository}

/-- What stands under a name is settled by the repositories of the name. -/
theorem standing?_taken (declared before : List Repository) (a : String) :
    standing? (declared ++ counted declared before) a =
      standing? (declared ++ counted (declared.filter (·.name? = some a)) (before.filter (·.name? = some a))) a := by
  rw [← standing?_filter, ← standing?_filter (declared ++ _), List.filter_append, List.filter_append,
    filter_counted, filter_counted, List.filter_filter, List.filter_filter]
  simp only [Bool.and_self]

/-- Repositories of a name give none of the fields that criteria look at, but for the name itself. -/
def Spares (rs : List Repository) (a : String) (criteria : Entries) : Prop :=
  ∀ r ∈ rs, r.name? = some a → ∀ criterion ∈ criteria,
    criterion.1 = .text "repository" ∨ r.fields.get? criterion.1 = none

theorem standing?_unsupplied (h : ∀ r ∈ before, r.name? ≠ some a) :
    standing? (declared ++ counted declared before) a = standing? declared a := by
  have hnone : (counted declared before).filter (·.name? = some a) = [] :=
    List.filter_eq_nil_iff.2 fun r hr => by simpa using h r (mem_of_mem_counted hr)
  rw [← standing?_filter, List.filter_append, hnone, List.append_nil, standing?_filter]

/-- Supplied repositories that spare the criteria leave what they look at. -/
theorem get?_spared (htitled : ∀ r ∈ declared ++ before, r.isTitled = true)
    (hspares : Spares before a criteria) (hfields : standing? declared a = some fields)
    (htaken : standing? (declared ++ counted declared before) a = some fields') :
    ∀ criterion ∈ criteria, fields'.get? criterion.1 = fields.get? criterion.1 := by
  intro criterion hc
  by_cases hkey : criterion.1 = .text "repository"
  · have hdeclared : ∀ r ∈ declared, r.isTitled = true := fun r hr => htitled r (List.mem_append_left _ hr)
    have htitled' : ∀ r ∈ declared ++ counted declared before, r.isTitled = true :=
      fun r hr => htitled r (mem_of_mem_taken hr)
    rw [hkey, repository_standing hdeclared hfields, repository_standing htitled' htaken]
  · have hother : (Value.text "repository").equal criterion.1 = false := by
      rwa [Bool.eq_false_iff, ne_eq, Value.text_equal]
    have hnone : ((counted declared before).filter (·.name? = some a)).reverse.findSome?
        (·.ownFields.get? criterion.1) = none := by
      rw [List.findSome?_eq_none_iff]
      intro r hr
      obtain ⟨hmem, hname⟩ := List.mem_filter.1 (List.mem_reverse.1 hr)
      rw [get?_ownFields r hother]
      exact (hspares r (mem_of_mem_counted hmem) (by simpa using hname) criterion hc).resolve_left hkey
    rw [get?_standing htaken, get?_standing hfields, List.filter_append, List.reverse_append,
      List.findSome?_append, hnone, Option.none_or]

end Turn

/-- A supplied repository with a name is passed over exactly if what stands under the name at its turn fails
its criteria. Those of other names do not matter, and it is judged by what is declared as long as no supplied
repository of its name comes before it, or only such as spare its criteria, the name being declared. -/
theorem criteria_judged {declared before after : List Repository}
    (htold : Told (declared ++ (before ++ o :: after)))
    (htitled : ∀ r ∈ declared ++ before, r.isTitled = true) (ho : o.name? = some a) :
    (merge declared (before ++ o :: after) =
      if counts (declared ++ counted declared before) o then merge declared (before ++ o.unconditional :: after)
      else merge declared (before ++ after)) ∧
    (counts (declared ++ counted declared before) o = false ↔
      ∃ fields, standing? (declared ++ counted declared before) a = some fields ∧ Fails fields o.criteria) ∧
    (∀ others : List Repository, others.filter (·.name? = some a) = before.filter (·.name? = some a) →
      counts (declared ++ counted declared others) o = counts (declared ++ counted declared before) o) ∧
    ((∀ r ∈ before, r.name? ≠ some a) ∨ (∃ r ∈ declared, r.name? = some a) ∧ Spares before a o.criteria →
      (counts (declared ++ counted declared before) o = false ↔
        ∃ fields, standing? declared a = some fields ∧ Fails fields o.criteria)) := by
  refine ⟨merge_criteria htold, counts_eq_false ho, ?_, ?_⟩
  · intro others hothers
    rw [counts, counts, ho, Option.bind_some, Option.bind_some, standing?_taken, hothers, ← standing?_taken]
  · rintro (hnone | ⟨⟨r, hr, hname⟩, hspares⟩)
    · rw [counts_eq_false ho, standing?_unsupplied hnone]
    · obtain ⟨fields, hfields⟩ := exists_standing? hr hname
      obtain ⟨fields', htaken⟩ :=
        exists_standing? (List.mem_append_left (counted declared before) hr) hname
      have hfails := Fails.congr (get?_spared htitled hspares hfields htaken)
      simp [counts_eq_false ho, hfields, htaken, hfails]

/-- The declared repository meets the criteria, but one that is supplied before has changed what they look
at. -/
theorem criteria_judged_late :
    let declared : List Repository := [⟨[(.text "repository", .text "a"), (.text "ref", .text "main")], []⟩]
    let before : List Repository := [⟨[(.text "repository", .text "a"), (.text "ref", .text "dev")], []⟩]
    let o : Repository :=
      ⟨[(.text "repository", .text "a"), (.text "path", .text "/x")], [(.text "ref", .text "main")]⟩
    Told (declared ++ (before ++ [o])) ∧ (∀ r ∈ declared ++ before, r.isTitled = true) ∧ o.name? = some "a" ∧
      counts declared o = true ∧ merge declared (before ++ [o]) = merge declared before := by
  intro declared before o
  have hnames : (declared ++ (before ++ [o])).filterMap name? = ["a", "a", "a"] := by cbv
  have htold : Told (declared ++ (before ++ [o])) := by
    apply told_of_prefix
    rw [hnames]
    decide
  have htitled : ∀ r ∈ declared ++ before, r.isTitled = true := List.all_eq_true.1 (by cbv)
  have ho : o.name? = some "a" := by cbv
  have hdeclared : counts declared o = true := by cbv
  have hpassed : counts (declared ++ counted declared before) o = false := by cbv
  obtain ⟨hmerge, -⟩ := criteria_judged htold htitled ho
  rw [hpassed] at hmerge
  exact ⟨htold, htitled, ho, hdeclared, hmerge⟩

end PipelineTemplate.Repository
