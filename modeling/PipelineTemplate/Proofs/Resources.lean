import PipelineTemplate.Resources
import PipelineTemplate.Proofs.Entries.Settled

/-!
# Merging supplied repositories

A repository that is declared alone is the first of the merged ones. It takes on the fields of those
supplied repositories that have its alias and criteria that it meets, and no other supplied repository
touches it.
-/

namespace PipelineTemplate.Repository

/-- A key that a repository without a name is merged under. -/
def IsPosition (key : String) : Prop := ∃ n : Nat, key = "__index_" ++ Text.ofNat n

/-- A repository has no name if it has no alias or only a number for one. -/
def Nameless (r : Repository) : Prop := r.alias?.all Text.isNumeric = true

variable {a : String} {fields : Entries} {r : Repository}

theorem mergeKey_eq_iff (ha : Text.isNumeric a = false) (h : r.Nameless → ¬IsPosition a) (n : Nat) :
    r.mergeKey n = a ↔ r.alias? = some a := by
  unfold Nameless at h
  unfold mergeKey
  cases halias : r.alias? with
  | none =>
    rw [halias] at h
    constructor
    · intro hkey
      exact absurd ⟨n, hkey.symm⟩ (h rfl)
    · intro hkey
      cases hkey
  | some name =>
    rw [halias, Option.all_some] at h
    cases hname : Text.isNumeric name with
    | true =>
      simp only [hname, if_true, Option.some.injEq]
      constructor
      · intro hkey
        exact absurd ⟨n, hkey.symm⟩ (h hname)
      · rintro rfl
        rw [ha] at hname
        cases hname
    | false => simp [hname]

/-- The fields of a declared repository together with those of a supplied one of its alias. -/
def supply (a : String) (fields : Entries) (r : Repository) : Entries :=
  if (Repository.mk fields []).satisfies r.criteria then fields.update (named a r.fields) else fields

theorem satisfies_nil : r.satisfies [] = true := rfl

section First

variable (fields : Entries) (rest : List (String × Entries))

/-- A supplied repository of its alias comes to the first one. -/
theorem mergeOne_own (hkey : r.mergeKey (rest.length + 1) = a) (halias : r.alias? = some a) :
    ∃ rest', mergeOne true ((a, fields) :: rest) r = (a, supply a fields r) :: rest' := by
  have hlookup : ((a, fields) :: rest).lookup a = some fields := List.lookup_cons_self
  unfold mergeOne
  simp only [List.length_cons, hkey, halias, hlookup, if_true, Bool.true_and]
  unfold supply
  cases hmeets : (Repository.mk fields []).satisfies r.criteria with
  | true =>
    simp only [Bool.not_true, Bool.and_false, Bool.false_eq_true, if_false, List.map_cons, BEq.rfl, if_true]
    exact ⟨_, rfl⟩
  | false =>
    have hcriteria : r.criteria.isEmpty = false := by
      cases hempty : r.criteria with
      | nil =>
        rw [hempty, satisfies_nil] at hmeets
        cases hmeets
      | cons criterion criteria => rfl
    simp only [hcriteria, Bool.not_false, Bool.and_true, if_true, Bool.false_eq_true, if_false]
    exact ⟨rest, rfl⟩

/-- A supplied repository under another key leaves the first one as it is. -/
theorem mergeOne_other (hkey : r.mergeKey (rest.length + 1) ≠ a) :
    ∃ rest', mergeOne true ((a, fields) :: rest) r = (a, fields) :: rest' := by
  have hbeq : (a == r.mergeKey (rest.length + 1)) = false := by simpa using Ne.symm hkey
  unfold mergeOne
  simp only [List.length_cons]
  split
  · exact ⟨_, rfl⟩
  · split
    · exact ⟨rest, rfl⟩
    · simp only [List.map_cons, hbeq, Bool.false_eq_true, if_false]
      exact ⟨_, rfl⟩

end First

/-- Of the supplied repositories only those with its alias come to the first one. -/
theorem foldl_mergeOne_first {rs : List Repository} (ha : Text.isNumeric a = false)
    (h : ∀ r ∈ rs, r.Nameless → ¬IsPosition a) (fields : Entries) (rest : List (String × Entries)) :
    ∃ rest', rs.foldl (mergeOne true) ((a, fields) :: rest) =
      (a, (rs.filter (·.alias? = some a)).foldl (supply a) fields) :: rest' := by
  induction rs generalizing fields rest with
  | nil => exact ⟨rest, rfl⟩
  | cons r rs ih =>
    obtain ⟨hr, hrs⟩ := List.forall_mem_cons.1 h
    have hkey := mergeKey_eq_iff ha hr (rest.length + 1)
    rw [List.foldl_cons]
    by_cases halias : r.alias? = some a
    · obtain ⟨rest', hmerged⟩ := mergeOne_own fields rest (hkey.2 halias) halias
      rw [hmerged, List.filter_cons_of_pos (by simpa using halias), List.foldl_cons]
      exact ih hrs _ rest'
    · obtain ⟨rest', hmerged⟩ := mergeOne_other fields rest (fun hk => halias (hkey.1 hk))
      rw [hmerged, List.filter_cons_of_neg (by simpa using halias)]
      exact ih hrs _ rest'

/-! ## Aliases -/

theorem alias?_of_repository (ha : a ≠ "") (h : fields.get? (.text "repository") = some (.text a)) (criteria : Entries) :
    (Repository.mk fields criteria).alias? = some a := by
  simp [alias?, field, Entries.getD, h, ha]

theorem alias?_ne_empty (h : r.alias? = some a) : a ≠ "" := by
  unfold alias? at h
  obtain ⟨key, -, hkey⟩ := List.exists_of_findSome?_eq_some h
  split at hkey
  · split at hkey
    · cases hkey
    · next hne =>
      cases hkey
      exact hne
  · cases hkey

theorem alias?_named (criteria criteria' : Entries) (h : (Repository.mk fields criteria).alias? = some a) :
    (Repository.mk (named a fields) criteria').alias? = some a := by
  unfold named
  split
  · apply alias?_of_repository (alias?_ne_empty h)
    rw [Entries.get?_insert, Value.equal_text.2 rfl, if_pos rfl]
  · exact h

/-- A repository that is declared alone is merged under its alias. -/
theorem merge_declared (h : r.alias? = some a) (ha : Text.isNumeric a = false) :
    [r].foldl (mergeOne false) [] = [(a, named a r.fields)] := by
  have hkey : r.mergeKey 0 = a := by simp [mergeKey, h, ha]
  simp [mergeOne, hkey, h]

end PipelineTemplate.Repository
