import Mathlib.Data.List.Induction
import PipelineTemplate.Proofs.Resources.Merge

/-!
# One repository for each name

Main statement: the merge neither loses nor doubles nor moves a repository. There is one for each name, in
the order in which the names first appear, and each repository without a name stays as it is; what stands
under a name has it for `repository`, and a second merge changes nothing.
-/

namespace PipelineTemplate.Repository

variable {a b : String} {r s : Repository} {rs : List Repository}

/-! ## The fields of a name -/

/-- What a repository has for `repository` is a text, unless it is vacant. -/
def isTitled (r : Repository) : Bool :=
  (r.fields.get? (.text "repository")).all fun v => v.isVacant || v.isText

/-- The other fields are those that the repository came with. -/
theorem get?_ownFields (r : Repository) {key : Value} (h : (Value.text "repository").equal key = false) :
    r.ownFields.get? key = r.fields.get? key := by
  unfold ownFields named
  split
  · split
    · rw [Entries.get?_insert, if_neg (by simp [h])]
    · rfl
  · rfl

theorem repository_ownFields (h : r.isTitled = true) (hname : r.name? = some a) :
    r.ownFields.get? (.text "repository") = some (.text a) := by
  have hinsert : (r.fields.insert (.text "repository") (.text a)).get? (.text "repository") = some (.text a) := by
    rw [Entries.get?_insert, if_pos (Value.equal_text.2 rfl)]
  rw [ownFields_of_name hname, named, Entries.getD]
  cases hget : r.fields.get? (.text "repository") with
  | none => exact hinsert
  | some v =>
    rw [Option.getD_some]
    by_cases hvacant : v.isVacant = true
    · rw [if_pos hvacant, hinsert]
    · obtain ⟨t, rfl⟩ : ∃ t, v = .text t := by
        unfold isTitled at h
        cases v <;> simp_all [Value.isText]
      have ht : t ≠ "" := by
        rintro rfl
        exact hvacant rfl
      have halias : r.alias? = some t := alias?_of_repository ht hget r.criteria
      rw [(name?_eq_some.1 hname).1] at halias
      cases halias
      rw [if_neg hvacant, hget]

theorem named_of_repository {fields : Entries} (ha : a ≠ "") (h : fields.get? (.text "repository") = some (.text a)) :
    named b fields = fields := by
  rw [named, Entries.getD, h, if_neg]
  simp [Value.isVacant, ha]

theorem get?_foldl_update (later : List Repository) (fields : Entries) (key : Value) :
    (later.foldl (fun fields s => fields.update s.ownFields) fields).get? key =
      (later.reverse.findSome? (·.ownFields.get? key)).or (fields.get? key) := by
  induction later generalizing fields with
  | nil => rfl
  | cons s later ih =>
    rw [List.foldl_cons, ih, Entries.get?_update, List.reverse_cons, List.findSome?_append, Option.or_assoc,
      List.findSome?_singleton]

/-- A field has the value that the last repository of the name gives it. -/
theorem get?_standing {fields : Entries} (h : standing? rs a = some fields) (key : Value) :
    fields.get? key = (rs.filter (·.name? = some a)).reverse.findSome? (·.ownFields.get? key) := by
  unfold standing? at h
  cases hsame : rs.filter (·.name? = some a) with
  | nil =>
    rw [hsame] at h
    cases h
  | cons r later =>
    rw [hsame] at h
    cases h
    rw [get?_foldl_update, List.reverse_cons, List.findSome?_append, List.findSome?_singleton]

theorem repository_standing {fields : Entries} (htitled : ∀ r ∈ rs, r.isTitled = true)
    (h : standing? rs a = some fields) : fields.get? (.text "repository") = some (.text a) := by
  obtain ⟨r, hr, hname⟩ := exists_of_standing? h
  rw [get?_standing h]
  have hgives : ∀ s ∈ (rs.filter (·.name? = some a)).reverse,
      s.ownFields.get? (.text "repository") = some (.text a) := by
    intro s hs
    obtain ⟨hmem, hs⟩ := List.mem_filter.1 (List.mem_reverse.1 hs)
    exact repository_ownFields (htitled s hmem) (by simpa using hs)
  have hne : (rs.filter (·.name? = some a)).reverse ≠ [] :=
    List.ne_nil_of_mem (List.mem_reverse.2 (List.mem_filter.2 ⟨hr, by simpa using hname⟩))
  obtain ⟨first, others, hlist⟩ := List.exists_cons_of_ne_nil hne
  rw [hlist] at hgives ⊢
  rw [List.findSome?_cons, hgives first List.mem_cons_self]

/-- A repository keeps its name. -/
theorem name?_joined (htitled : ∀ r ∈ rs, r.isTitled = true) (hr : r ∈ rs) : (joined rs r).name? = r.name? := by
  cases hname : r.name? with
  | none =>
    rw [joined_of_nameless hname]
    exact hname
  | some a =>
    obtain ⟨fields, hfields⟩ := exists_standing? hr hname
    obtain ⟨halias, hnumeric⟩ := name?_eq_some.1 hname
    rw [joined_of_name hname hfields]
    refine name?_eq_some.2 ⟨?_, hnumeric⟩
    exact alias?_of_repository (alias?_ne_empty halias) (repository_standing htitled hfields) []

/-! ## One for each name -/

theorem filterMap_firsts (rs : List Repository) :
    (firsts rs).filterMap name? = (rs.filterMap name?).eraseDups := by
  induction rs using List.reverseRecOn with
  | nil => rfl
  | append_singleton rs r ih =>
    cases hname : r.name? with
    | none =>
      rw [firsts_append_new (.inl hname), List.filterMap_append, List.filterMap_append, ih]
      simp [hname]
    | some a =>
      by_cases hknown : ∃ s ∈ rs, s.name? = some a
      · have hmem : a ∈ rs.filterMap name? := List.mem_filterMap.2 hknown
        rw [firsts_append_known hname hknown, ih, List.filterMap_append, List.eraseDups_append]
        generalize rs.filterMap name? = names at hmem
        simp [hname, List.removeAll, hmem]
      · push Not at hknown
        have hmem : a ∉ rs.filterMap name? := by
          intro hmem
          obtain ⟨s, hs, hsname⟩ := List.mem_filterMap.1 hmem
          exact hknown s hs hsname
        rw [firsts_append_new (.inr (hname ▸ hknown)), List.filterMap_append, List.filterMap_append, ih,
          List.eraseDups_append]
        generalize rs.filterMap name? = names at hmem
        simp [hname, List.removeAll, hmem, List.eraseDups_cons]

theorem filter_firsts (rs : List Repository) :
    (firsts rs).filter (·.name? = none) = rs.filter (·.name? = none) := by
  induction rs with
  | nil => rfl
  | cons r rs ih =>
    have hkept : ((firsts rs).filter fun s => r.name? = none ∨ s.name? ≠ r.name?).filter (·.name? = none) =
        (firsts rs).filter (·.name? = none) := by
      rw [List.filter_filter]
      refine List.filter_congr fun s _ => ?_
      by_cases hs : s.name? = none
      · simp only [hs, ne_eq, decide_true, Bool.true_and, decide_eq_true_eq]
        exact (em (r.name? = none)).imp_right fun hr h => hr h.symm
      · simp [hs]
    rw [firsts, List.filter_cons, List.filter_cons, hkept, ih]

/-- Of two of the repositories the second one has no name or another one. -/
theorem pairwise_firsts (rs : List Repository) :
    (firsts rs).Pairwise fun r s => r.name? = none ∨ s.name? ≠ r.name? := by
  induction rs with
  | nil => exact .nil
  | cons r rs ih =>
    refine .cons (fun s hs => ?_) (ih.sublist List.filter_sublist)
    simpa using (List.mem_filter.1 hs).2

theorem firsts_of_pairwise (h : rs.Pairwise fun r s => r.name? = none ∨ s.name? ≠ r.name?) :
    firsts rs = rs := by
  induction rs with
  | nil => rfl
  | cons r rs ih =>
    obtain ⟨hr, hrs⟩ := List.pairwise_cons.1 h
    rw [firsts, ih hrs, List.filter_eq_self.2 fun s hs => decide_eq_true (hr s hs)]

theorem standing?_of_pairwise (h : rs.Pairwise fun r s => r.name? = none ∨ s.name? ≠ r.name?) (hr : r ∈ rs)
    (hname : r.name? = some a) : standing? rs a = some r.ownFields := by
  have honly : rs.filter (·.name? = some a) = [r] := by
    induction rs with
    | nil => cases hr
    | cons s rs ih =>
      obtain ⟨hs, hrs⟩ := List.pairwise_cons.1 h
      by_cases hsname : s.name? = some a
      · have hnone : rs.filter (·.name? = some a) = [] := by
          refine List.filter_eq_nil_iff.2 fun t ht => ?_
          have hne := (hs t ht).resolve_left (by simp [hsname])
          simpa [hsname] using hne
        have heq : r = s := by
          refine (List.mem_cons.1 hr).resolve_right fun hr => ?_
          exact List.filter_eq_nil_iff.1 hnone r hr (by simpa using hname)
        rw [List.filter_cons_of_pos (by simpa using hsname), hnone, heq]
      · have hmem : r ∈ rs := by
          refine (List.mem_cons.1 hr).resolve_left ?_
          rintro rfl
          exact hsname hname
        rw [List.filter_cons_of_neg (by simpa using hsname), ih hrs hmem]
  unfold standing?
  rw [honly]
  rfl

theorem mem_of_mem_counted {supplied : List Repository} (h : r ∈ counted rs supplied) : r ∈ supplied := by
  induction supplied generalizing rs with
  | nil => cases h
  | cons s supplied ih =>
    rw [counted] at h
    split at h
    · rcases List.mem_cons.1 h with rfl | h
      · exact List.mem_cons_self
      · exact List.mem_cons_of_mem _ (ih h)
    · exact List.mem_cons_of_mem _ (ih h)

/-! ## The outcome -/

theorem Told.of_mem {ss : List Repository} (h : Told rs) (hss : ∀ s ∈ ss, s ∈ rs) : Told ss :=
  fun s hs => h s (hss s hs)

theorem mem_of_mem_taken {declared supplied : List Repository} (h : r ∈ declared ++ counted declared supplied) :
    r ∈ declared ++ supplied :=
  (List.mem_append.1 h).elim (List.mem_append_left _) fun h => List.mem_append_right _ (mem_of_mem_counted h)

theorem merge_nil (h : Told rs) : merge rs [] = (firsts rs).map (joined rs) := by
  have hmerge := merge_eq_firsts (show Told (rs ++ []) by rwa [List.append_nil])
  rwa [counted, List.append_nil] at hmerge

/-- Repositories that have all been joined are merged to themselves. -/
theorem merge_joined (htold : Told rs) (htitled : ∀ r ∈ rs, r.isTitled = true) :
    merge ((firsts rs).map (joined rs)) [] = (firsts rs).map (joined rs) := by
  have hname {r : Repository} (hr : r ∈ firsts rs) : (joined rs r).name? = r.name? :=
    name?_joined htitled (mem_of_mem_firsts hr)
  have hapart : ((firsts rs).map (joined rs)).Pairwise fun r s => r.name? = none ∨ s.name? ≠ r.name? := by
    refine List.pairwise_map.2 ((pairwise_firsts rs).imp_of_mem fun hr hs h => ?_)
    rwa [hname hr, hname hs]
  have htold' : Told ((firsts rs).map (joined rs)) := by
    intro s hs a hsname
    obtain ⟨r, hr, rfl⟩ := List.mem_map.1 hs
    exact htold r (mem_of_mem_firsts hr) a ((hname hr).symm.trans hsname)
  have hself : ∀ s ∈ (firsts rs).map (joined rs), joined ((firsts rs).map (joined rs)) s = s := by
    intro s hs
    have hstanding {a : String} (hsname : s.name? = some a) := standing?_of_pairwise hapart hs hsname
    obtain ⟨r, hr, rfl⟩ := List.mem_map.1 hs
    cases hrname : r.name? with
    | none => rw [joined_of_nameless ((hname hr).trans hrname), joined_of_nameless hrname]
    | some a =>
      have hsname := (hname hr).trans hrname
      obtain ⟨fields, hfields⟩ := exists_standing? (mem_of_mem_firsts hr) hrname
      have ha : a ≠ "" := alias?_ne_empty (name?_eq_some.1 hrname).1
      rw [joined_of_name hsname (hstanding hsname), ownFields_of_name hsname, joined_of_name hrname hfields,
        named_of_repository ha (repository_standing htitled hfields)]
  rw [merge_nil htold', firsts_of_pairwise hapart, List.map_congr_left hself, List.map_id']

/-- A name does not look like a position if it does not begin like one. -/
theorem told_of_prefix (h : ∀ a ∈ rs.filterMap name?, ¬"__index_".toList <+: a.toList) : Told rs := by
  rintro r hr a hname ⟨n, rfl⟩
  apply h _ (List.mem_filterMap.2 ⟨r, hr, hname⟩)
  rw [String.toList_append]
  exact List.prefix_append _ _

end PipelineTemplate.Repository
