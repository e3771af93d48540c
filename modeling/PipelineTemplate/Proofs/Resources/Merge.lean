import Mathlib.Data.List.Basic
import PipelineTemplate.Proofs.Resources
import PipelineTemplate.Proofs.Text.Digit

/-!
# The merge as a whole

Repositories are merged under keys, and those without a name under the position that they get. No two of
them share a position, and a position is no name, so the keys leave no trace in the outcome: the declared
repositories and those supplied ones that count come to the first one of each name and those without a name,
with the fields of a name put together from left to right.
-/

namespace PipelineTemplate.Repository

/-! ## Names -/

/-- The name of a repository: its alias, unless that is only a number. -/
def name? (r : Repository) : Option String := r.alias?.filter fun a => !Text.isNumeric a

/-- The fields of a repository, its name among them if it has one. -/
def ownFields (r : Repository) : Entries :=
  match r.name? with
  | some a => named a r.fields
  | none => r.fields

variable {a b : String} {r s : Repository} {rs : List Repository}

theorem name?_eq_some : r.name? = some a ↔ r.alias? = some a ∧ Text.isNumeric a = false := by
  rw [name?, Option.filter_eq_some_iff, Bool.not_eq_true']

theorem name?_eq_none : r.name? = none ↔ r.Nameless := by
  unfold name? Nameless
  cases r.alias? <;> simp [Option.filter]

theorem ownFields_of_name (h : r.name? = some a) : r.ownFields = named a r.fields := by
  rw [ownFields, h]

theorem ownFields_of_nameless (h : r.name? = none) : r.ownFields = r.fields := by
  rw [ownFields, h]

/-! ## Keys -/

theorem isNumeric_position (n : Nat) : Text.isNumeric ("__index_" ++ Text.ofNat n) = false := by
  have hfirst : Text.isDigit '_' = false := by decide
  simp [Text.isNumeric, String.toList_append, hfirst]

theorem position_injective {m n : Nat} (h : "__index_" ++ Text.ofNat m = "__index_" ++ Text.ofNat n) :
    m = n := by
  have hdigits : Nat.toDigits 10 m = Nat.toDigits 10 n := by
    simpa [Text.ofNat] using congrArg String.toList h
  rw [← Text.numeral_toDigits m, hdigits, Text.numeral_toDigits]

theorem mergeKey_of_name (h : r.name? = some a) (n : Nat) : r.mergeKey n = a := by
  obtain ⟨halias, hnumeric⟩ := name?_eq_some.1 h
  simp [mergeKey, halias, hnumeric]

theorem mergeKey_of_nameless (h : r.name? = none) (n : Nat) : r.mergeKey n = "__index_" ++ Text.ofNat n := by
  rw [name?_eq_none, Nameless] at h
  unfold mergeKey
  cases halias : r.alias? with
  | none => rfl
  | some a =>
    rw [halias, Option.all_some] at h
    simp [h]

/-- What is merged under a key are the fields that the repository has with its name. -/
theorem mergeOne_eq (supplied : Bool) (merged : List (String × Entries)) (r : Repository) :
    mergeOne supplied merged r =
      match merged.lookup (r.mergeKey merged.length) with
      | none => merged ++ [(r.mergeKey merged.length, r.ownFields)]
      | some existing =>
        if supplied && !(Repository.mk existing []).satisfies r.criteria then merged
        else merged.map fun (k, old) =>
          if k == r.mergeKey merged.length then (k, old.update r.ownFields) else (k, old) := by
  have hfields : (if r.alias? = some (r.mergeKey merged.length) then named (r.mergeKey merged.length) r.fields
      else r.fields) = r.ownFields := by
    cases hname : r.name? with
    | some a =>
      rw [mergeKey_of_name hname, if_pos (name?_eq_some.1 hname).1, ownFields_of_name hname]
    | none =>
      rw [mergeKey_of_nameless hname, ownFields_of_nameless hname, if_neg]
      intro halias
      have hsome := name?_eq_some.2 ⟨halias, isNumeric_position _⟩
      rw [hname] at hsome
      cases hsome
  have hcriteria (existing : Entries) :
      (supplied && !r.criteria.isEmpty && !(Repository.mk existing []).satisfies r.criteria) =
        (supplied && !(Repository.mk existing []).satisfies r.criteria) := by
    cases hempty : r.criteria with
    | nil => simp [satisfies_nil]
    | cons criterion criteria => simp
  cases hlookup : merged.lookup (r.mergeKey merged.length) with
  | none => simp only [mergeOne, hlookup, hfields]
  | some existing => simp only [mergeOne, hlookup, hfields, hcriteria]

/-! ## What stands under a name -/

/-- The fields of the repositories of a name, those of later ones over those of earlier ones, if there are
any. -/
def standing? (rs : List Repository) (a : String) : Option Entries :=
  match rs.filter (·.name? = some a) with
  | [] => none
  | r :: later => some (later.foldl (fun fields s => fields.update s.ownFields) r.ownFields)

/-- What a repository has come to among others. -/
def joined (rs : List Repository) (r : Repository) : Repository :=
  { fields := (r.name?.bind (standing? rs)).getD r.fields }

/-- The repositories that have no name, and of each name the first one. -/
def firsts : List Repository → List Repository
  | [] => []
  | r :: rs => r :: (firsts rs).filter fun s => r.name? = none ∨ s.name? ≠ r.name?

/-- Whether a supplied repository counts behind others: what stands under its name there, if anything does,
meets its criteria. -/
def counts (rs : List Repository) (r : Repository) : Bool :=
  (r.name?.bind (standing? rs)).all fun fields => (Repository.mk fields []).satisfies r.criteria

/-- The supplied repositories that count, each behind the ones before it. -/
def counted (rs : List Repository) : List Repository → List Repository
  | [] => []
  | r :: supplied =>
    if counts rs r then r :: counted (rs ++ [r]) supplied else counted rs supplied

theorem standing?_eq_none : standing? rs a = none ↔ ∀ r ∈ rs, r.name? ≠ some a := by
  unfold standing?
  cases hsame : rs.filter (·.name? = some a) with
  | nil => simpa using hsame
  | cons r later =>
    have hr : r ∈ rs.filter (·.name? = some a) := by
      rw [hsame]
      exact List.mem_cons_self
    obtain ⟨hmem, hname⟩ := List.mem_filter.1 hr
    simp only [reduceCtorEq, false_iff]
    exact fun hnone => hnone r hmem (by simpa using hname)

theorem exists_standing? (hr : r ∈ rs) (hname : r.name? = some a) : ∃ fields, standing? rs a = some fields := by
  rw [← Option.isSome_iff_exists, ← Option.ne_none_iff_isSome, ne_eq, standing?_eq_none]
  exact fun hnone => hnone r hr hname

theorem exists_of_standing? {fields : Entries} (h : standing? rs a = some fields) :
    ∃ r ∈ rs, r.name? = some a := by
  by_contra hnone
  push Not at hnone
  rw [standing?_eq_none.2 hnone] at h
  cases h

theorem standing?_append (rs : List Repository) (r : Repository) (a : String) :
    standing? (rs ++ [r]) a =
      if r.name? = some a then some ((standing? rs a).elim r.ownFields (·.update r.ownFields))
      else standing? rs a := by
  unfold standing?
  rw [List.filter_append]
  by_cases hname : r.name? = some a
  · rw [List.filter_cons_of_pos (by simpa using hname), List.filter_nil, if_pos hname]
    cases rs.filter (·.name? = some a) with
    | nil => rfl
    | cons first later => simp [List.foldl_append]
  · rw [List.filter_cons_of_neg (by simpa using hname), List.filter_nil, List.append_nil, if_neg hname]

theorem joined_of_nameless (h : r.name? = none) : joined rs r = { fields := r.fields } := by
  rw [joined, h]
  rfl

theorem joined_of_name {fields : Entries} (h : r.name? = some a) (hfields : standing? rs a = some fields) :
    joined rs r = { fields } := by
  rw [joined, h, Option.bind_some, hfields]
  rfl

/-- A repository behind others changes nothing under other names. -/
theorem joined_append_of_ne (h : r.name? = none ∨ s.name? ≠ r.name?) : joined (rs ++ [r]) s = joined rs s := by
  unfold joined
  cases hs : s.name? with
  | none => rfl
  | some a =>
    rw [hs] at h
    have hname : r.name? ≠ some a := by
      rintro hname
      rw [hname] at h
      rcases h with h | h
      · cases h
      · exact h rfl
    rw [Option.bind_some, Option.bind_some, standing?_append, if_neg hname]

theorem mem_of_mem_firsts (h : r ∈ firsts rs) : r ∈ rs := by
  induction rs with
  | nil => cases h
  | cons s rs ih =>
    rcases List.mem_cons.1 h with rfl | h
    · exact List.mem_cons_self
    · exact List.mem_cons_of_mem _ (ih (List.mem_filter.1 h).1)

/-- Each name is kept. -/
theorem exists_mem_firsts (h : r ∈ rs) (hname : r.name? = some a) : ∃ s ∈ firsts rs, s.name? = some a := by
  induction rs with
  | nil => cases h
  | cons s rs ih =>
    by_cases hs : s.name? = some a
    · exact ⟨s, List.mem_cons_self, hs⟩
    · have hr : r ∈ rs := by
        refine (List.mem_cons.1 h).resolve_left ?_
        rintro rfl
        exact hs hname
      obtain ⟨t, ht, htname⟩ := ih hr
      refine ⟨t, List.mem_cons_of_mem _ (List.mem_filter.2 ⟨ht, ?_⟩), htname⟩
      rw [htname]
      exact decide_eq_true (.inr (Ne.symm hs))

theorem firsts_append_new (h : r.name? = none ∨ ∀ s ∈ rs, s.name? ≠ r.name?) :
    firsts (rs ++ [r]) = firsts rs ++ [r] := by
  induction rs with
  | nil => rfl
  | cons s rs ih =>
    have hrs : r.name? = none ∨ ∀ t ∈ rs, t.name? ≠ r.name? :=
      h.imp_right fun h t ht => h t (List.mem_cons_of_mem _ ht)
    have hs : s.name? = none ∨ r.name? ≠ s.name? := by
      by_cases hname : r.name? = s.name?
      · rcases h with h | h
        · exact .inl (hname.symm.trans h)
        · exact absurd hname.symm (h s List.mem_cons_self)
      · exact .inr hname
    have hkept : [r].filter (fun t => s.name? = none ∨ t.name? ≠ s.name?) = [r] :=
      List.filter_cons_of_pos (by simpa using hs)
    rw [List.cons_append, firsts, firsts, ih hrs, List.filter_append, hkept, List.cons_append]

theorem firsts_append_known (hr : r.name? = some a) (hknown : ∃ s ∈ rs, s.name? = some a) :
    firsts (rs ++ [r]) = firsts rs := by
  induction rs with
  | nil =>
    obtain ⟨s, hs, -⟩ := hknown
    cases hs
  | cons t rs ih =>
    rw [List.cons_append, firsts, firsts]
    by_cases hlater : ∃ s ∈ rs, s.name? = some a
    · rw [ih hlater]
    · -- The first repository of the name is the very first of all.
      have ht : t.name? = some a := by
        obtain ⟨s, hs, hname⟩ := hknown
        rcases List.mem_cons.1 hs with rfl | hs
        · exact hname
        · exact absurd ⟨s, hs, hname⟩ hlater
      have hnew : ∀ s ∈ rs, s.name? ≠ r.name? := by
        intro s hs hname
        exact hlater ⟨s, hs, hname.trans hr⟩
      have hout : [r].filter (fun s => t.name? = none ∨ s.name? ≠ t.name?) = [] := by
        simp [ht, hr]
      rw [firsts_append_new (.inr hnew), List.filter_append, hout, List.append_nil]

/-! ## Slots -/

/-- The names of repositories are told apart from the positions that those without names have. -/
def Told (rs : List Repository) : Prop := ∀ r ∈ rs, ∀ a, r.name? = some a → ¬IsPosition a

/-- What repositories are merged to, under their keys. -/
def slots (rs : List Repository) : List (String × Entries) :=
  (firsts rs).mapIdx fun i r => (r.mergeKey i, (joined rs r).fields)

theorem Told.left {ss : List Repository} (h : Told (rs ++ ss)) : Told rs :=
  fun r hr => h r (List.mem_append_left _ hr)

theorem lookup_eq_some_of_forall {entries : List (String × Entries)} {key : String} {v : Entries}
    (hmem : ∃ p ∈ entries, p.1 = key) (hall : ∀ p ∈ entries, p.1 = key → p.2 = v) :
    entries.lookup key = some v := by
  cases hlookup : entries.lookup key with
  | none =>
    obtain ⟨p, hp, hkey⟩ := hmem
    have hne := List.lookup_eq_none_iff.1 hlookup p hp
    simp [hkey] at hne
  | some w =>
    obtain ⟨before, after, rfl, -⟩ := List.lookup_eq_some_iff.1 hlookup
    exact congrArg some (hall (key, w) (by simp) rfl)

/-- Under a name there is what stands under it. -/
theorem lookup_slots (rs : List Repository) (ha : ¬IsPosition a) : (slots rs).lookup a = standing? rs a := by
  have hkey {i : Nat} {r : Repository} (hr : r ∈ firsts rs) (hk : r.mergeKey i = a) : r.name? = some a := by
    cases hname : r.name? with
    | none => exact absurd ⟨i, (hk.symm.trans (mergeKey_of_nameless hname i))⟩ ha
    | some b => rw [← hk, mergeKey_of_name hname]
  cases hfields : standing? rs a with
  | none =>
    refine List.lookup_eq_none_iff.2 fun p hp => ?_
    obtain ⟨i, hi, rfl⟩ := List.mem_mapIdx.1 hp
    have hr := List.getElem_mem hi
    have hne : (firsts rs)[i].mergeKey i ≠ a :=
      fun hk => standing?_eq_none.1 hfields _ (mem_of_mem_firsts hr) (hkey hr hk)
    simpa using Ne.symm hne
  | some fields =>
    apply lookup_eq_some_of_forall
    · obtain ⟨r, hr, hname⟩ := exists_of_standing? hfields
      obtain ⟨s, hs, hsname⟩ := exists_mem_firsts hr hname
      obtain ⟨i, hi, rfl⟩ := List.getElem_of_mem hs
      exact ⟨_, List.mem_mapIdx.2 ⟨i, hi, rfl⟩, mergeKey_of_name hsname i⟩
    · intro p hp hk
      obtain ⟨i, hi, rfl⟩ := List.mem_mapIdx.1 hp
      have hr := List.getElem_mem hi
      rw [joined_of_name (hkey hr hk) hfields]

/-- The next position is not taken. -/
theorem lookup_slots_position (h : Told rs) :
    (slots rs).lookup ("__index_" ++ Text.ofNat (slots rs).length) = none := by
  refine List.lookup_eq_none_iff.2 fun p hp => ?_
  obtain ⟨i, hi, rfl⟩ := List.mem_mapIdx.1 hp
  have hr := mem_of_mem_firsts (List.getElem_mem hi)
  have hne : (firsts rs)[i].mergeKey i ≠ "__index_" ++ Text.ofNat (slots rs).length := by
    intro hk
    cases hname : (firsts rs)[i].name? with
    | some b =>
      rw [mergeKey_of_name hname] at hk
      exact h _ hr b hname ⟨_, hk⟩
    | none =>
      rw [mergeKey_of_nameless hname] at hk
      have hlast := position_injective hk
      rw [slots, List.length_mapIdx] at hlast
      omega
  simpa using Ne.symm hne

/-- Where nothing stands under its name, a repository gets a slot behind the others. -/
theorem slots_append_new (h : r.name? = none ∨ ∀ s ∈ rs, s.name? ≠ r.name?) :
    slots (rs ++ [r]) = slots rs ++ [(r.mergeKey (slots rs).length, r.ownFields)] := by
  have hown : (joined (rs ++ [r]) r).fields = r.ownFields := by
    cases hname : r.name? with
    | none => rw [joined_of_nameless hname, ownFields_of_nameless hname]
    | some a =>
      have hnone : standing? rs a = none := by
        rw [standing?_eq_none, ← hname]
        exact h.resolve_left (by simp [hname])
      rw [joined_of_name hname]
      rw [standing?_append, if_pos hname, hnone]
      rfl
  unfold slots
  rw [firsts_append_new h, List.mapIdx_concat, List.length_mapIdx, hown]
  refine congrArg (· ++ _) (List.mapIdx_eq_mapIdx_iff.2 fun i hi => ?_)
  rw [joined_append_of_ne (h.imp_right fun h => h _ (mem_of_mem_firsts (List.getElem_mem hi)))]

/-- Otherwise its fields are put over those that stand there. -/
theorem slots_append_known (hr : r.name? = some a) (ha : ¬IsPosition a) (hknown : ∃ s ∈ rs, s.name? = some a) :
    slots (rs ++ [r]) =
      (slots rs).map fun (k, old) => if k == a then (k, old.update r.ownFields) else (k, old) := by
  unfold slots
  rw [firsts_append_known hr hknown]
  refine List.ext_getElem (by simp) fun i hi _ => ?_
  rw [List.length_mapIdx] at hi
  simp only [List.getElem_map, List.getElem_mapIdx]
  have hmem := mem_of_mem_firsts (List.getElem_mem hi)
  generalize (firsts rs)[i] = t at hmem
  by_cases ht : t.name? = some a
  · obtain ⟨fields, hfields⟩ := exists_standing? hmem ht
    have hnext : standing? (rs ++ [r]) a = some (fields.update r.ownFields) := by
      rw [standing?_append, if_pos hr, hfields]
      rfl
    rw [mergeKey_of_name ht, if_pos BEq.rfl, joined_of_name ht hfields, joined_of_name ht hnext]
  · have hkey : t.mergeKey i ≠ a := by
      cases htname : t.name? with
      | none =>
        rw [mergeKey_of_nameless htname]
        exact fun hk => ha ⟨i, hk.symm⟩
      | some b =>
        rw [mergeKey_of_name htname]
        rintro rfl
        exact ht htname
    rw [joined_append_of_ne (.inr (hr ▸ ht)), if_neg (by simpa using hkey)]

/-! ## The merge -/

/-- A repository that counts is merged. -/
theorem mergeOne_slots (supplied : Bool) (h : Told (rs ++ [r])) (hcounts : supplied = true → counts rs r = true) :
    mergeOne supplied (slots rs) r = slots (rs ++ [r]) := by
  rw [mergeOne_eq]
  cases hname : r.name? with
  | none =>
    rw [slots_append_new (.inl hname), mergeKey_of_nameless hname, lookup_slots_position h.left]
  | some a =>
    have ha : ¬IsPosition a := h r (by simp) a hname
    rw [mergeKey_of_name hname, lookup_slots rs ha]
    cases hfields : standing? rs a with
    | none =>
      have hnew : ∀ s ∈ rs, s.name? ≠ r.name? := by
        rw [hname]
        exact standing?_eq_none.1 hfields
      rw [slots_append_new (.inr hnew), mergeKey_of_name hname]
    | some fields =>
      have hmeets : supplied = true → (Repository.mk fields []).satisfies r.criteria = true := by
        intro hs
        have hc := hcounts hs
        rwa [counts, hname, Option.bind_some, hfields, Option.all_some] at hc
      rw [slots_append_known hname ha (exists_of_standing? hfields)]
      refine if_neg ?_
      cases supplied with
      | false => simp
      | true => simp [hmeets rfl]

/-- A supplied repository that does not count is passed over. -/
theorem mergeOne_passed (h : Told (rs ++ [r])) (hcounts : counts rs r = false) :
    mergeOne true (slots rs) r = slots rs := by
  rw [mergeOne_eq]
  cases hname : r.name? with
  | none => simp [counts, hname] at hcounts
  | some a =>
    have ha : ¬IsPosition a := h r (by simp) a hname
    rw [mergeKey_of_name hname, lookup_slots rs ha]
    rw [counts, hname, Option.bind_some] at hcounts
    cases hfields : standing? rs a with
    | none => simp [hfields] at hcounts
    | some fields =>
      rw [hfields, Option.all_some] at hcounts
      simp [hcounts]

theorem foldl_declared {declared : List Repository} (h : Told (rs ++ declared)) :
    declared.foldl (mergeOne false) (slots rs) = slots (rs ++ declared) := by
  induction declared generalizing rs with
  | nil => rw [List.append_nil]; rfl
  | cons r declared ih =>
    rw [List.append_cons] at h ⊢
    rw [List.foldl_cons, mergeOne_slots false h.left (by simp), ih h]

theorem foldl_declared_nil (h : Told rs) : rs.foldl (mergeOne false) [] = slots rs :=
  foldl_declared (show Told ([] ++ rs) from h)

theorem foldl_supplied {supplied : List Repository} (h : Told (rs ++ supplied)) :
    supplied.foldl (mergeOne true) (slots rs) = slots (rs ++ counted rs supplied) := by
  induction supplied generalizing rs with
  | nil => rw [counted, List.append_nil]; rfl
  | cons r supplied ih =>
    have hr : Told (rs ++ [r]) := by
      rw [List.append_cons] at h
      exact h.left
    rw [List.foldl_cons, counted]
    cases hcounts : counts rs r with
    | true =>
      rw [mergeOne_slots true hr fun _ => hcounts, if_pos rfl, ih (by rwa [← List.append_cons]),
        ← List.append_cons]
    | false =>
      rw [mergeOne_passed hr hcounts, ih, if_neg Bool.false_ne_true]
      intro s hs
      exact h s (by simp only [List.mem_append, List.mem_cons] at hs ⊢; tauto)

/-- The declared repositories and the supplied ones that count come to one repository for each name and each
repository without one. -/
theorem merge_eq_firsts {declared supplied : List Repository} (h : Told (declared ++ supplied)) :
    merge declared supplied =
      (firsts (declared ++ counted declared supplied)).map (joined (declared ++ counted declared supplied)) := by
  rw [merge, foldl_declared_nil h.left, foldl_supplied h]
  apply List.ext_getElem
  · simp [slots]
  · intro i hi hj
    simp [slots, joined]

end PipelineTemplate.Repository
