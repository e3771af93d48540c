import PipelineTemplate.Settings
import PipelineTemplate.Proofs.Resources

/-!
# Configured locations of repositories

Main statement: of the locations that are configured for an alias only the last one counts, and a
declared repository of this alias takes it on exactly when it meets its criteria. An earlier location
is not used instead, whether or not the repository meets its criteria.
-/

namespace PipelineTemplate.Settings

variable (settings : Settings) (surroundings : Surroundings) (workspace document : Option String)

/-- Where a configured location is. -/
def resolved (l : RepositoryLocation) : Option String :=
  Path.resolveConfigured surroundings workspace document l.rawPath

/-- The last of the locations for an alias, with its path. -/
def lastFor? (a : String) : List RepositoryLocation → Option (RepositoryLocation × String)
  | [] => none
  | l :: rest =>
    (lastFor? a rest).or
      (if Text.strip l.repository = a then (resolved surroundings workspace document l).map (l, ·) else none)

/-- The location that counts for an alias, with its path. -/
def counted? (a : String) : Option (RepositoryLocation × String) :=
  lastFor? surroundings workspace document a settings.locations

/-- What the settings supply, as a section of resources. -/
def suppliedSection : Value :=
  .map [(.text "repositories", .map (settings.suppliedRepositories surroundings workspace document))]

/-- The entries that a location supplies. -/
def suppliedEntries (path : String) (criteria : Entries) : Entries :=
  (.text "location", .text path) ::
    if criteria.isEmpty then [] else [(.text "matchCriteria", .map criteria)]

/-- The repository that a location supplies under a name. -/
def supplied (name path : String) (criteria : Entries) : Repository :=
  ⟨(.text "location", .text path) ::
    (if name = "" then [] else [(.text "repository", .text name)]), criteria⟩

variable {settings surroundings workspace document} {a name path : String} {criteria : Entries}

/-! ## The location that counts -/

/-- A location that names a path is somewhere. -/
theorem exists_resolved {l : RepositoryLocation} (h : Text.strip l.rawPath ≠ "") :
    ∃ path, resolved surroundings workspace document l = some path := by
  unfold resolved Path.resolveConfigured
  simp only [if_neg h]
  split
  · exact ⟨_, rfl⟩
  · exact ⟨_, rfl⟩

/-- While all locations name paths, the last one that is configured for an alias counts. -/
theorem lastFor?_eq_find? {ls : List RepositoryLocation} (h : ∀ l ∈ ls, Text.strip l.rawPath ≠ "") (a : String) :
    (lastFor? surroundings workspace document a ls).map Prod.fst =
      ls.reverse.find? fun l => decide (Text.strip l.repository = a) := by
  induction ls with
  | nil => rfl
  | cons l rest ih =>
    obtain ⟨hl, hrest⟩ := List.forall_mem_cons.1 h
    obtain ⟨path, hpath⟩ : ∃ path, resolved surroundings workspace document l = some path := exists_resolved hl
    unfold lastFor?
    rw [hpath, List.reverse_cons, List.find?_append, ← ih hrest]
    cases lastFor? surroundings workspace document a rest with
    | some found => rfl
    | none => by_cases hname : Text.strip l.repository = a <;> simp [hname]

/-! ## What one location supplies -/

theorem ofEntries_supplied (name path : String) (criteria : Entries) :
    Repository.ofEntries (if (Value.text name).isVacant then none else some (Value.text name).display)
      (suppliedEntries path criteria) = supplied name path criteria := by
  have hfields : (suppliedEntries path criteria).filter
      (fun entry => !Repository.criteriaKeys.any (·.equal entry.1)) = [(.text "location", .text path)] := by
    unfold suppliedEntries
    cases criteria <;> simp [Repository.criteriaKeys, Value.equal]
  have hcriteria : (Repository.criteriaKeys.findSome? fun key =>
      ((suppliedEntries path criteria).get? key).bind Value.entries?).getD [] = criteria := by
    unfold suppliedEntries
    cases criteria <;> simp [Repository.criteriaKeys, Value.equal, Entries.get?, Value.entries?]
  unfold Repository.ofEntries supplied
  simp only [hfields, hcriteria]
  by_cases hname : name = ""
  · simp [hname, Value.isVacant]
  · simp [hname, Value.isVacant, Value.display, Repository.named, Entries.getD, Entries.get?, Entries.insert,
      Value.equal]

theorem alias?_supplied :
    (supplied name path criteria).alias? = if name = "" then none else some name := by
  unfold supplied
  by_cases hname : name = ""
  · simp [hname, Repository.alias?, Repository.field, Entries.getD, Entries.get?, Value.equal]
  · simp only [hname, if_false]
    apply Repository.alias?_of_repository hname
    simp [Entries.get?, Value.equal]

theorem nameless_supplied :
    (supplied name path criteria).Nameless ↔ name = "" ∨ Text.isNumeric name = true := by
  unfold Repository.Nameless
  rw [alias?_supplied]
  by_cases hname : name = "" <;> simp [hname]

/-! ## What all of them supply -/

/-- An entry that is supplied under one of the names that are configured. -/
def IsSupplied (settings : Settings) (entry : Value × Value) : Prop :=
  (∃ l ∈ settings.locations, entry.1 = .text (Text.strip l.repository)) ∧
    ∃ path criteria, entry.2 = .map (suppliedEntries path criteria)

/-- The entries that the locations supply, those of the same name one after the other. -/
def suppliedPairs (settings : Settings) (surroundings : Surroundings) (workspace document : Option String) :
    Entries :=
  settings.locations.filterMap fun l => (resolved surroundings workspace document l).map fun path =>
    (.text (Text.strip l.repository), .map (suppliedEntries path l.criteria))

theorem suppliedRepositories_eq : settings.suppliedRepositories surroundings workspace document =
    (suppliedPairs settings surroundings workspace document).settled := by
  rw [← Entries.update_nil_eq_settled]
  unfold suppliedRepositories suppliedPairs
  refine congrArg (Entries.update []) (List.filterMap_congr fun l _ => ?_)
  cases h : resolved surroundings workspace document l <;> simp_all [resolved, suppliedEntries]

theorem isSupplied_suppliedRepositories :
    ∀ entry ∈ settings.suppliedRepositories surroundings workspace document, IsSupplied settings entry := by
  have hall : ∀ entry ∈ suppliedPairs settings surroundings workspace document, IsSupplied settings entry := by
    intro entry hentry
    obtain ⟨l, hl, hsome⟩ := List.mem_filterMap.1 hentry
    obtain ⟨path, -, rfl⟩ := Option.map_eq_some_iff.1 hsome
    exact ⟨⟨l, hl, rfl⟩, path, l.criteria, rfl⟩
  intro entry hentry
  rw [suppliedRepositories_eq] at hentry
  constructor
  · exact Entries.settled_keys (p := fun key => ∃ l ∈ settings.locations, key = .text (Text.strip l.repository))
      (fun entry he => (hall entry he).1) entry hentry
  · exact Entries.settled_values (p := fun v => ∃ path criteria, v = .map (suppliedEntries path criteria))
      (fun entry he => (hall entry he).2) entry hentry

theorem get?_suppliedPairs (a : String) :
    (suppliedPairs settings surroundings workspace document).get? (.text a) =
      (settings.counted? surroundings workspace document a).map fun (l, path) =>
        .map (suppliedEntries path l.criteria) := by
  unfold suppliedPairs counted?
  induction settings.locations with
  | nil => rfl
  | cons l rest ih =>
    unfold lastFor?
    cases hpath : resolved surroundings workspace document l with
    | none => simpa [List.filterMap_cons, hpath] using ih
    | some path =>
      rw [List.filterMap_cons, hpath, Option.map_some]
      dsimp only
      rw [Entries.get?_cons, ih]
      cases lastFor? surroundings workspace document a rest with
      | some found => rfl
      | none => by_cases hname : Text.strip l.repository = a <;> simp [Value.equal, hname]

theorem get?_suppliedRepositories (a : String) :
    (settings.suppliedRepositories surroundings workspace document).get? (.text a) =
      (settings.counted? surroundings workspace document a).map fun (l, path) =>
        .map (suppliedEntries path l.criteria) := by
  rw [suppliedRepositories_eq, ← Entries.update_nil_eq_settled, Entries.get?_update, get?_suppliedPairs]
  exact Option.or_none

/-- The repository that an entry declares. -/
def ofEntry (entry : Value × Value) : Option Repository :=
  entry.2.entries?.map
    (Repository.ofEntries (if entry.1.isVacant then none else some entry.1.display))

theorem ofEntry_supplied (name path : String) (criteria : Entries) :
    ofEntry (.text name, .map (suppliedEntries path criteria)) = some (supplied name path criteria) := by
  change some _ = _
  rw [ofEntries_supplied]

/-- Of entries with distinct names at most one supplies a repository of an alias. -/
theorem filter_entries (ha : a ≠ "") {entries : Entries} (hd : entries.Distinct)
    (h : ∀ entry ∈ entries, IsSupplied settings entry) :
    (entries.filterMap ofEntry).filter (·.alias? = some a) =
      ((entries.get? (.text a)).bind fun v => ofEntry (.text a, v)).toList := by
  induction entries with
  | nil => rfl
  | cons entry rest ih =>
    obtain ⟨hfirst, hothers⟩ := List.pairwise_cons.1 hd
    obtain ⟨hentry, hrest⟩ := List.forall_mem_cons.1 h
    obtain ⟨⟨l, -, hkey⟩, path, criteria, hvalue⟩ := hentry
    obtain ⟨key, v⟩ := entry
    simp only at hkey hvalue
    subst hkey hvalue
    have hlater := ih hothers hrest
    rw [List.filterMap_cons, ofEntry_supplied]
    dsimp only
    by_cases hname : Text.strip l.repository = a
    · subst hname
      have hnone : Entries.get? (.text (Text.strip l.repository)) rest = none := by
        apply Entries.get?_eq_none
        intro e he
        rw [Value.equal_comm]
        exact hfirst e he
      rw [hnone] at hlater
      rw [List.filter_cons_of_pos (by simp [alias?_supplied, ha]), hlater,
        Entries.get?_cons_of_equal (Value.equal_text.2 rfl), hnone, Option.getD_none, Option.bind_some,
        ofEntry_supplied]
      rfl
    · have hother : ¬(supplied (Text.strip l.repository) path criteria).alias? = some a := by
        rw [alias?_supplied]
        split
        · simp
        · simpa using hname
      rw [List.filter_cons_of_neg (by simpa using hother), hlater,
        Entries.get?_cons_of_ne (by simpa [Value.equal] using hname)]

/-- Only the location that counts for an alias supplies a repository of it. -/
theorem filter_ofValue (ha : a ≠ "") :
    (Repository.ofValue (.map (settings.suppliedRepositories surroundings workspace document))).filter
        (·.alias? = some a) =
      ((settings.counted? surroundings workspace document a).map fun (l, path) =>
        supplied a path l.criteria).toList := by
  have hd : (settings.suppliedRepositories surroundings workspace document).Distinct := by
    rw [suppliedRepositories_eq]
    exact Entries.settled_distinct _
  have hfilter := filter_entries ha hd isSupplied_suppliedRepositories
  rw [get?_suppliedRepositories] at hfilter
  refine hfilter.trans ?_
  cases settings.counted? surroundings workspace document a with
  | none => rfl
  | some found =>
    rw [Option.map_some, Option.bind_some, ofEntry_supplied]
    rfl

/-- The names of the locations are told apart from an alias: no location goes without a name of its own
while the alias is one that repositories without names are merged under. -/
def Apart (settings : Settings) (a : String) : Prop := ∀ l ∈ settings.locations,
  Text.strip l.repository = "" ∨ Text.isNumeric (Text.strip l.repository) = true → ¬Repository.IsPosition a

theorem apart_ofValue (h : settings.Apart a) {r : Repository}
    (hr : r ∈ Repository.ofValue (.map (settings.suppliedRepositories surroundings workspace document)))
    (hnameless : r.Nameless) : ¬Repository.IsPosition a := by
  obtain ⟨⟨key, v⟩, hentry, hsome⟩ := List.mem_filterMap.1 hr
  obtain ⟨⟨l, hl, hkey⟩, path, criteria, hvalue⟩ := isSupplied_suppliedRepositories _ hentry
  simp only at hkey hvalue
  subst hkey hvalue
  have hsupplied := (ofEntry_supplied (Text.strip l.repository) path criteria).symm.trans hsome
  cases hsupplied
  exact h l hl (nameless_supplied.1 hnameless)

/-- The fields of a declared repository under the location that counts for its alias, if it meets the
criteria of that location. -/
def located (a : String) (own : Entries) : Option (RepositoryLocation × String) → Entries
  | some (l, path) =>
    if (Repository.mk own []).satisfies l.criteria then
      (own.insert (.text "location") (.text path)).insert (.text "repository") (.text a)
    else own
  | none => own

theorem alias?_located {own : Entries} (h : (Repository.mk own []).alias? = some a)
    (found : Option (RepositoryLocation × String)) : (Repository.mk (located a own found) []).alias? = some a := by
  unfold located
  split
  · split
    · apply Repository.alias?_of_repository (Repository.alias?_ne_empty h)
      rw [Entries.get?_insert, Value.equal_text.2 rfl, if_pos rfl]
    · exact h
  · exact h

theorem supply_located (ha : a ≠ "") (own : Entries) (found : Option (RepositoryLocation × String)) :
    ((found.map fun (l, path) => supplied a path l.criteria).toList).foldl (Repository.supply a) own =
      located a own found := by
  cases found with
  | none => rfl
  | some pair =>
    have hnamed (path : String) (criteria : Entries) : Repository.named a (supplied a path criteria).fields =
        [(.text "location", .text path), (.text "repository", .text a)] := by
      simp [supplied, ha, Repository.named, Entries.getD, Entries.get?, Value.equal, Value.isVacant]
    rw [Option.map_some, Option.toList_some, List.foldl_cons, List.foldl_nil]
    unfold Repository.supply located
    rw [hnamed]
    rfl

theorem repositories_ofValue (v : Value) :
    (Resources.ofValue (.map [(.text "repositories", v)])).repositories = Repository.ofValue v := by
  simp [Resources.ofValue, Value.entries?, Entries.getD, Entries.get?, Value.equal]

/-- A declared repository is changed by what the settings supply only by the location that counts for
its alias, which is the last one, and only when it meets the criteria of this one. -/
theorem supplied_last {declared : Value} {entries : Entries} (hdeclared : declared.entries? = some entries)
    (halias : (Repository.ofEntries none entries).alias? = some a) (hnumeric : Text.isNumeric a = false)
    (hapart : settings.Apart a) :
    ((Resources.ofValue (.map [(.text "repositories", .list [declared])])).merge
        (Resources.ofValue (settings.suppliedSection surroundings workspace document))).find? a =
      some ⟨located a (Repository.named a (Repository.ofEntries none entries).fields)
        (settings.counted? surroundings workspace document a), []⟩ := by
  have ha := Repository.alias?_ne_empty halias
  have hone : Repository.ofValue (.list [declared]) = [Repository.ofEntries none entries] := by
    change [declared].filterMap (fun value => value.entries?.map (Repository.ofEntries none)) = _
    simp [hdeclared]
  have hrest : ∀ r ∈ Repository.ofValue (.map (settings.suppliedRepositories surroundings workspace document)),
      r.Nameless → ¬Repository.IsPosition a := fun r hr => apart_ofValue hapart hr
  obtain ⟨rest, hmerged⟩ := Repository.foldl_mergeOne_first hnumeric hrest
    (Repository.named a (Repository.ofEntries none entries).fields) []
  rw [filter_ofValue ha, supply_located ha] at hmerged
  have hnamed := alias?_located (Repository.alias?_named _ [] halias)
    (settings.counted? surroundings workspace document a)
  unfold Resources.find? Resources.merge Repository.merge suppliedSection
  simp only [repositories_ofValue, hone, Repository.merge_declared halias hnumeric, hmerged, List.map_cons]
  exact List.find?_cons_of_pos (decide_eq_true hnamed)

/-- Of two locations that are configured for one alias the repository meets the criteria of the first,
but the second counts. -/
theorem supplied_last_unmet :
    let settings : Settings :=
      { locations := [⟨"tools", some "/a", none, none, none, some "main", none⟩,
          ⟨"tools", some "/b", none, none, none, some "dev", none⟩] }
    let declared : Entries := [(.text "repository", .text "tools"), (.text "ref", .text "main")]
    (Value.map declared).entries? = some declared ∧
      (Repository.ofEntries none declared).alias? = some "tools" ∧ Text.isNumeric "tools" = false ∧
      settings.Apart "tools" ∧
      ((Resources.ofValue (.map [(.text "repositories", .list [.map declared])])).merge
          (Resources.ofValue (settings.suppliedSection ⟨[], "/", "/"⟩ none none))).find? "tools" =
        some ⟨declared, []⟩ := by
  intro settings declared
  have halias : (Repository.ofEntries none declared).alias? = some "tools" := by cbv
  have hnumeric : Text.isNumeric "tools" = false := by decide
  have hapart : settings.Apart "tools" := by
    intro l hl hname
    exfalso
    rcases List.mem_cons.1 hl with rfl | hl
    · exact absurd hname (by decide)
    · obtain rfl := List.mem_singleton.1 hl
      exact absurd hname (by decide)
  refine ⟨rfl, halias, hnumeric, hapart, ?_⟩
  have hown : Repository.named "tools" (Repository.ofEntries none declared).fields = declared := by cbv
  have hpaths : ∀ l ∈ settings.locations, Text.strip l.rawPath ≠ "" := by
    intro l hl
    rcases List.mem_cons.1 hl with rfl | hl
    · cbv
    · obtain rfl := List.mem_singleton.1 hl
      cbv
  rw [@supplied_last settings ⟨[], "/", "/"⟩ none none "tools" (.map declared) declared rfl halias hnumeric
    hapart, hown]
  cases hcounted : settings.counted? ⟨[], "/", "/"⟩ none none "tools" with
  | none => rfl
  | some found =>
    obtain ⟨l, path⟩ := found
    have hlast := @lastFor?_eq_find? ⟨[], "/", "/"⟩ none none settings.locations hpaths "tools"
    change (settings.counted? _ _ _ "tools").map Prod.fst = _ at hlast
    have hsecond : settings.locations.reverse.find? (fun l => decide (Text.strip l.repository = "tools")) =
        some ⟨"tools", some "/b", none, none, none, some "dev", none⟩ := by
      have hname : Text.strip "tools" = "tools" := by decide
      simp [settings, hname]
    rw [hcounted, hsecond] at hlast
    obtain rfl := Option.some.inj hlast
    have hunmet : (Repository.mk declared []).satisfies
        (RepositoryLocation.criteria ⟨"tools", some "/b", none, none, none, some "dev", none⟩) = false := by cbv
    unfold located
    simp only [hunmet, Bool.false_eq_true, if_false]

end PipelineTemplate.Settings
