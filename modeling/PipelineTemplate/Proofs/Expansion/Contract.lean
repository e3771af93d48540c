import PipelineTemplate.Proofs.Expansion.Remains

/-!
# Contracts of expansions

A contract says what the values are like that parts of documents become, in contexts that are reached and
for parts that stand where they are expected. What one item of a sequence and one pair of a mapping add is
settled first, from what their parts ensure. Then the rules of expansion are followed in both modes, as what
a mapping inserts is expanded with its references kept.
-/

namespace PipelineTemplate.Expansion

namespace Passage

/-- A run that stays on a course ensures what it gives on the way. -/
abbrev EnsuresOn {α : Type} (p : Passage) (c : Course) (r : Run α) (post : α → Prop) : Prop :=
  Run.Ensures c p.first p.last r post

/-- A run gives a value on the way, on a course. -/
def Attains {α : Type} (p : Passage) (c : Course) (r : Run α) (a : α) : Prop :=
  ∃ s t, c.leads p.first s ∧ r.start s = (.ok a, t) ∧ c.leads t p.last

end Passage

/-- What is demanded of the values that an expansion gives, and where its parts stand. -/
structure Contract where
  /-- The contexts in which something is demanded. -/
  reached : Context → Prop
  /-- Where the parts stand that are expanded in a mode. -/
  stands : Mode → Value → Prop
  /-- The references that are kept in a context, by template and parameters. -/
  refers : Context → Value → Value → Prop
  /-- The values that parts become. -/
  whole : Value → Prop
  /-- The items of lists in them. -/
  item : Value → Prop
  /-- All that stands in them, such as the values of entries. -/
  entry : Value → Prop

namespace Contract

variable (k : Contract) (ctx : Context) (mode : Mode)

/-- The values of the entries of a mapping stand where they should; what they insert is kept. -/
def StandEntries (entries : Entries) : Prop :=
  ∀ entry ∈ entries, k.stands mode entry.2 ∧
    (Directive.ofKey? entry.1 = some .insert → k.stands .preserving entry.2)

/-- A part becomes a value, which may be an item unless the part is a reference itself. -/
abbrev Fulfils (node v : Value) : Prop :=
  k.reached ctx → k.stands mode node →
    k.whole v ∧ (node.reference? = none → v ≠ .undefined → k.item v)

/-- A part gives items. -/
abbrev Yields (node : Value) (out : List Value) : Prop :=
  k.reached ctx → k.stands mode node → ∀ x ∈ out, k.item x

/-- A part gives entries. -/
abbrev Brings (node : Value) (out : Entries) : Prop :=
  k.reached ctx → k.stands mode node → ∀ entry ∈ out, k.entry entry.2

/-- The items of a sequence give items. -/
abbrev Gathers (items out : List Value) : Prop :=
  k.reached ctx → (∀ item ∈ items, k.stands mode item) → ∀ x ∈ out, k.item x

/-- The pairs of a mapping give entries, if those before are such. -/
abbrev Fills (pairs before out : Entries) : Prop :=
  k.reached ctx → k.StandEntries mode pairs → (∀ entry ∈ before, k.entry entry.2) →
    ∀ entry ∈ out, k.entry entry.2

/-- A reference, which may be kept, stands for a list. -/
abbrev Supplies (template parameters v : Value) : Prop :=
  k.reached ctx → (mode = .preserving → k.refers ctx template parameters) →
    k.whole v ∧ v.reference? = none

/-- Parts of a value give items, if the references among them may be kept. -/
abbrev Spreads (items out : List Value) : Prop :=
  k.reached ctx → (∀ item ∈ items, k.entry item) →
    (mode = .preserving → ∀ item ∈ items, ∀ template parameters,
      item.reference? = some (template, parameters) → k.refers ctx template parameters) →
    ∀ x ∈ out, k.item x

end Contract

/-- A contract is kept by the steps from which expansions are composed, on a course on which they stay. -/
structure ContractRules (p : Passage) (c : Course) (keep : Keeper) (k : Contract) : Prop where
  -- The steps stay on the course, which goes on.
  before : ∀ {s t}, c.leads s t → s.Before t
  evaluation : EvaluationRules fun _ r => r.Along c
  pass : ∀ point, (Run.pass point).Along c
  fetch : ∀ ctx name, (fetch p.engine ctx name).Along c
  given : ∀ ctx parameters, (given p.engine keep ctx parameters).Along c
  -- Contexts are reached by being entered, and what stands in a part stands where that does.
  entered : ∀ {ctx}, p.Enters ctx → k.reached ctx
  used : ∀ {document}, p.Used document → k.stands .resolving document
  child : ∀ {mode node part}, k.stands mode node → part ∈ node.children → k.stands mode part
  inserted : ∀ {mode node entries entry}, k.stands mode node → node.pairs? = some entries → entry ∈ entries →
    Directive.ofKey? entry.1 = some .insert → k.stands .preserving entry.2
  written : ∀ {ctx node template parameters}, k.stands .preserving node →
    node.reference? = some (template, parameters) → k.refers ctx template parameters
  listed : ∀ {ctx node v items item template parameters}, k.reached ctx → k.stands .preserving node →
    p.Attains c (expandValue p.engine keep .preserving ctx node) v → v.list? = some items → item ∈ items →
      item.reference? = some (template, parameters) → k.refers ctx template parameters
  -- A value is what stands in it; a list is also its items, among which a reference needs a reason.
  whole_iff : ∀ {v}, k.whole v ↔
    (∀ part ∈ v.children, k.entry part) ∧ ∀ items, v.list? = some items → ∀ x ∈ items, k.item x
  whole_of_entry : ∀ {v}, k.entry v → k.whole v
  entry_of_whole : ∀ {v}, k.whole v → v ≠ .undefined → k.entry v
  entry_of_item : ∀ {v}, k.item v → k.entry v
  item_of_entry : ∀ {v}, k.entry v → v.reference? = none → k.item v
  became : ∀ {mode ctx mapping v}, k.reached ctx → k.stands mode mapping → mapping.isMapping = true →
    mapping.reference? = none → p.Attains c (expandValue p.engine keep mode ctx mapping) v → k.entry v →
      k.item v
  -- What the steps give that are no expansions themselves.
  evaluated : ∀ mode ctx {text}, isWholeExpression (Text.strip text) = true →
    p.EnsuresOn c (ctx.evaluateText (expressionBody (Text.strip text))) fun v =>
      k.reached ctx → k.stands mode (.text text) → (∀ part ∈ v.children, k.entry part) ∧
        (mode = .preserving → k.whole v ∧ ∀ template parameters,
          v.reference? = some (template, parameters) → k.refers ctx template parameters)
  kept : ∀ ctx template parameters, p.EnsuresOn c (preserveReference keep ctx template parameters) fun v =>
    k.reached ctx → k.refers ctx template parameters → k.item v
  contributed : ∀ {ctx document v}, p.Enters ctx → p.Used document →
    p.Attains c (expandValue p.engine keep .resolving ctx (withoutParameters document)) v → k.whole v →
      k.whole (Template.contribution v)

namespace ContractRules

variable {p : Passage} {c : Course} {keep : Keeper} {k : Contract}

/-! ## What stands where -/

section Standing

variable (rules : ContractRules p c keep k) {mode : Mode} {node : Value}

include rules

theorem items {items : List Value} (h : k.stands mode node) (hi : node.items? = some items) :
    ∀ item ∈ items, k.stands mode item := by
  intro item hm
  apply rules.child h
  rw [Value.children_of_items? hi]
  exact hm

theorem entries {entries : Entries} (h : k.stands mode node) (hp : node.pairs? = some entries) :
    k.StandEntries mode entries := by
  intro entry he
  refine ⟨rules.child h ?_, rules.inserted h hp he⟩
  rw [Value.children_of_pairs? hp]
  exact List.mem_map_of_mem he

/-- The body of a directive stands in its item. -/
theorem body {item body : Value} {d : Directive} (h : k.stands mode item)
    (hd : directiveItem? item = some (d, body)) : k.stands mode body :=
  rules.child h (mem_children_of_directiveItem? hd)

/-- A reference that stands where references are kept is kept. -/
theorem refers {ctx : Context} {template parameters : Value} (h : k.stands mode node)
    (hr : node.reference? = some (template, parameters)) :
    mode = .preserving → k.refers ctx template parameters := by
  rintro rfl
  exact rules.written h hr

end Standing

/-! ## What values are like -/

section Values

variable (rules : ContractRules p c keep k) {v : Value}

include rules

theorem whole_list {items : List Value} (h : ∀ x ∈ items, k.item x) : k.whole (.list items) := by
  refine rules.whole_iff.2 ⟨fun x hx => rules.entry_of_item (h x hx), fun xs hl => ?_⟩
  cases hl
  exact h

theorem whole_map {entries : Entries} (h : ∀ entry ∈ entries, k.entry entry.2) : k.whole (.map entries) := by
  refine rules.whole_iff.2 ⟨fun part hp => ?_, nofun⟩
  obtain ⟨entry, he, rfl⟩ := List.mem_map.1 hp
  exact h entry he

theorem whole_leaf (hi : v.items? = none) (hp : v.pairs? = none) : k.whole v := by
  refine rules.whole_iff.2 ⟨fun part hc => ?_, fun items hl => ?_⟩
  · rw [Value.children_of_other hi hp] at hc
    cases hc
  · rw [Value.items?_of_list? hl] at hi
    cases hi

/-- The items that a list gives; any other value gives none. -/
theorem whole_items (h : k.whole v) : ∀ x ∈ v.list?.getD [], k.item x := by
  cases hl : v.list? with
  | none => exact nofun
  | some items => exact (rules.whole_iff.1 h).2 items hl

theorem whole_entries (h : k.whole v) : ∀ entry ∈ v.entries?.getD [], k.entry entry.2 :=
  Value.forall_entries (rules.whole_iff.1 h).1

theorem whole_of_item (h : k.item v) : k.whole v := rules.whole_of_entry (rules.entry_of_item h)

/-- A value that is no reference may be an item. -/
theorem settled (h : k.whole v) (hr : v.reference? = none) (hu : v ≠ .undefined) : k.item v :=
  rules.item_of_entry (rules.entry_of_whole h hu) hr

theorem ensures_pass (point : Waypoint) :
    p.EnsuresOn c (Run.pass point) fun _ => p.first.Passes p.last point :=
  ⟨rules.pass point, fun _ _ _ hs h hl => Run.passes_of_start_pass (rules.before hs) h (rules.before hl)⟩

theorem ensures_fetch (ctx : Context) (name : String) :
    p.EnsuresOn c (Expansion.fetch p.engine ctx name) fun a => p.Used a.document := by
  refine ⟨rules.fetch ctx name, fun _ _ _ hs ha hl => ?_⟩
  exact Passage.used_of_start_fetch (rules.before hs) ha (rules.before hl)

theorem ensures_skipReference (template : Value) :
    p.EnsuresOn c (skipReference template) fun v => k.whole v ∧ v.reference? = none := by
  apply (Run.Ensures.of_along (rules.evaluation.report _ _ _ _)).bind
  intro _
  exact .pure fun _ => ⟨rules.whole_list nofun, rfl⟩

theorem ensures_mergeIteration (ctx : Context) (name : String) (merged branch : Entries) :
    p.EnsuresOn c (mergeIteration ctx name merged branch) fun out =>
      (∀ entry ∈ merged, k.entry entry.2) → (∀ entry ∈ branch, k.entry entry.2) →
        ∀ entry ∈ out, k.entry entry.2 := by
  unfold mergeIteration
  cases hg : branch.get? computedKey with
  | none => exact .pure fun hm hb => Entries.forall_update hm hb
  | some value =>
    refine (Run.Ensures.of_along (rules.evaluation.iterationKey ctx name)).bind fun key =>
      .pure fun _ hm hb => ?_
    exact Entries.forall_update (Entries.forall_insert hm (Entries.get?_of_all hb hg) _)
      (Entries.forall_erase hb _)

end Values

/-! ## One item -/

section Items

variable {mode : Mode} {ctx : Context} {item : Value} {rest : List Value}
  (further : ∀ taken, p.EnsuresOn c (expandItems p.engine keep mode ctx taken rest)
    (k.Gathers ctx mode rest))

include further

theorem ensures_rest (taken : Bool) :
    p.EnsuresOn c (expandItems p.engine keep mode ctx taken rest) (k.Gathers ctx mode (item :: rest)) :=
  (further taken).mono fun _ hout reached stands => hout reached (List.forall_mem_cons.1 stands).2

/-- What an item gives stands before what the rest gives. -/
theorem ensures_append (taken : Bool) {q : Prop} {here : List Value} (hq : q → k.Yields ctx mode item here) :
    p.EnsuresOn c (do return here ++ (← expandItems p.engine keep mode ctx taken rest)) fun out =>
      q → k.Gathers ctx mode (item :: rest) out := by
  apply (further taken).bind
  intro more
  refine .pure fun hmore h reached stands => ?_
  obtain ⟨hitem, hrest⟩ := List.forall_mem_cons.1 stands
  exact List.forall_mem_append.2 ⟨hq h reached hitem, hmore reached hrest⟩

variable (rules : ContractRules p c keep k)

include rules

/-- An item that is expanded for itself. -/
theorem ensures_plainItem
    (value : p.EnsuresOn c (expandValue p.engine keep mode ctx item) (k.Fulfils ctx mode item))
    (splices : ∀ parts, p.EnsuresOn c (splice p.engine keep mode ctx parts) (k.Spreads ctx mode parts))
    (hr : item.reference? = none) (hd : ∀ d body, directiveItem? item = some (d, body) → d = .insert)
    (taken : Bool) :
    p.EnsuresOn c (expandItems p.engine keep mode ctx taken (item :: rest))
      (k.Gathers ctx mode (item :: rest)) := by
  rw [expandItems_plain hr hd]
  apply value.attained.bind
  intro v
  -- The references among the parts come from the value that the item is known to give.
  have spliced {parts : List Value} (hv : v.list? = some parts) :
      p.EnsuresOn c (do
        let here ← splice p.engine keep mode ctx parts
        return here ++ (← expandItems p.engine keep mode ctx false rest)) fun out =>
        (k.Fulfils ctx mode item v ∧ p.Attains c (expandValue p.engine keep mode ctx item) v) →
          k.Gathers ctx mode (item :: rest) out := by
    have here : p.EnsuresOn c (splice p.engine keep mode ctx parts) fun here =>
        (k.Fulfils ctx mode item v ∧ p.Attains c (expandValue p.engine keep mode ctx item) v) →
          k.Yields ctx mode item here := by
      refine (splices parts).mono fun here hhere known reached stands => ?_
      refine hhere reached (fun x hx => ?_) fun hm x hx _ _ hxr => ?_
      · exact rules.entry_of_item ((rules.whole_iff.1 (known.1 reached stands).1).2 parts hv x hx)
      · subst hm
        exact rules.listed reached stands known.2 hv hx hxr
    apply here.bind
    intro here
    exact (ensures_append further false (And.elim id)).mono fun _ hout hhere known => hout ⟨hhere, known⟩
  split
  · exact (ensures_rest further false).mono fun _ hout _ => hout
  · exact spliced rfl
  · exact spliced rfl
  · rename_i hu _ _
    refine ensures_append further false fun hv reached stands => List.forall_mem_singleton.2 ?_
    exact (hv.1 reached stands).2 hr hu

/-- A branch: its body gives something at most if it is taken. -/
theorem ensures_branchItem {d : Directive} {body : Value}
    (bodies : p.EnsuresOn c (branchItems p.engine keep mode ctx body) (k.Yields ctx mode body))
    (hb : Branch d) (hr : item.reference? = none) (hd : directiveItem? item = some (d, body))
    (taken : Bool) :
    p.EnsuresOn c (expandItems p.engine keep mode ctx taken (item :: rest))
      (k.Gathers ctx mode (item :: rest)) := by
  cases taken with
  | true =>
    rw [expandItems_skipped hb hr hd]
    exact ensures_rest further _
  | false =>
    rw [expandItems_choice hb hr hd]
    apply (Run.Ensures.of_along (rules.evaluation.holds ctx d)).bind
    intro held
    cases held with
    | false => exact (ensures_rest further false).mono fun _ hout _ => hout
    | true =>
      have here : p.EnsuresOn c (takenItems p.engine keep mode ctx body) (k.Yields ctx mode item) := by
        unfold takenItems
        split
        · exact .pure fun _ _ => nofun
        · exact bodies.mono fun _ hout reached stands => hout reached (rules.body stands hd)
      exact (here.bind fun _ => ensures_append further _ id).mono fun _ hout _ => hout

/-- A loop: its body is expanded in the context of each iteration. -/
theorem ensures_loopItem {name collection : String} {body : Value}
    (bodies : ∀ element, p.EnsuresOn c
      (branchItems p.engine keep mode (iteration ctx name element) body)
      (k.Yields (iteration ctx name element) mode body))
    (hr : item.reference? = none) (hd : directiveItem? item = some (.each name collection, body))
    (taken : Bool) :
    p.EnsuresOn c (expandItems p.engine keep mode ctx taken (item :: rest))
      (k.Gathers ctx mode (item :: rest)) := by
  rw [expandItems_each hr hd]
  apply (Run.Ensures.of_along (rules.evaluation.loopElements ctx collection)).bind
  intro elements
  have iterated : p.EnsuresOn c (elements.mapM (itemStep p.engine keep mode ctx name body))
      fun parts => ∀ out ∈ parts, k.stands mode item → ∀ x ∈ out, k.item x := by
    apply Run.Ensures.mapM
    intro element _
    apply (rules.ensures_pass _).bind
    intro _
    exact (bodies element).mono fun _ hout entered stands =>
      hout (rules.entered entered) (rules.body stands hd)
  refine (iterated.bind fun here => ?_).mono fun _ hout _ => hout
  refine ensures_append further false fun hhere _ stands => List.forall_mem_flatten.2 ?_
  exact fun out hout => hhere out hout stands

end Items

/-! ## One pair -/

section Pairs

variable {mode : Mode} {ctx : Context} {key value : Value} {before rest : Entries}
  (further : ∀ taken next, p.EnsuresOn c (expandEntries p.engine keep mode ctx taken next rest)
    (k.Fills ctx mode rest next))

include further

/-- The rest goes on from entries that depend on what the first pair gives. -/
theorem ensures_onward (taken : Bool) {q : Prop} {next : Entries}
    (hq : q → k.reached ctx → k.stands mode value →
      (Directive.ofKey? key = some .insert → k.stands .preserving value) →
      (∀ entry ∈ before, k.entry entry.2) → ∀ entry ∈ next, k.entry entry.2) :
    p.EnsuresOn c (expandEntries p.engine keep mode ctx taken next rest) fun out =>
      q → k.Fills ctx mode ((key, value) :: rest) before out := by
  refine (further taken next).mono fun out hout h reached stands hb => ?_
  obtain ⟨⟨hv, hk⟩, hrest⟩ := List.forall_mem_cons.1 stands
  exact hout reached hrest (hq h reached hv hk hb)

theorem ensures_unchanged (taken : Bool) :
    p.EnsuresOn c (expandEntries p.engine keep mode ctx taken before rest)
      (k.Fills ctx mode ((key, value) :: rest) before) :=
  (ensures_onward further taken fun (_ : True) _ _ _ hb => hb).mono fun _ hout => hout trivial

variable (rules : ContractRules p c keep k)

include rules

/-- A pair that is no directive. -/
theorem ensures_plainPair
    (values : p.EnsuresOn c (expandValue p.engine keep mode ctx value) (k.Fulfils ctx mode value))
    (hd : Directive.ofKey? key = none) (taken : Bool) :
    p.EnsuresOn c (expandEntries p.engine keep mode ctx taken before ((key, value) :: rest))
      (k.Fills ctx mode ((key, value) :: rest) before) := by
  rw [expandEntries_plain hd]
  apply values.bind
  intro v
  split
  · exact (ensures_unchanged further false).mono fun _ hout _ => hout
  · rename_i hu
    apply (Run.Ensures.of_along (rules.evaluation.substituteValue ctx key)).bind
    intro replaced
    refine (ensures_onward further false fun hv reached stands _ hb => ?_).mono fun _ h _ => h
    exact Entries.forall_insert hb (rules.entry_of_whole (hv reached stands).1 hu) replaced

/-- What is inserted is expanded in the other mode, for which it stands where it should. -/
theorem ensures_insertPair
    (values : p.EnsuresOn c (expandValue p.engine keep .preserving ctx value)
      (k.Fulfils ctx .preserving value))
    (hd : Directive.ofKey? key = some .insert) (taken : Bool) :
    p.EnsuresOn c (expandEntries p.engine keep mode ctx taken before ((key, value) :: rest))
      (k.Fills ctx mode ((key, value) :: rest) before) := by
  rw [expandEntries_insert hd]
  apply values.bind
  intro v
  exact ensures_onward further false fun hv reached _ hk hb =>
    Entries.forall_update hb (rules.whole_entries (hv reached (hk hd)).1)

/-- A branch: its body gives something at most if it is taken. -/
theorem ensures_branchPair {d : Directive}
    (bodies : p.EnsuresOn c (branchEntries p.engine keep mode ctx value) (k.Brings ctx mode value))
    (hb : Branch d) (hd : Directive.ofKey? key = some d) (taken : Bool) :
    p.EnsuresOn c (expandEntries p.engine keep mode ctx taken before ((key, value) :: rest))
      (k.Fills ctx mode ((key, value) :: rest) before) := by
  cases taken with
  | true =>
    rw [expandEntries_skipped hb hd]
    exact ensures_unchanged further _
  | false =>
    rw [expandEntries_choice hb hd]
    apply (Run.Ensures.of_along (rules.evaluation.holds ctx d)).bind
    intro held
    cases held with
    | false => exact (ensures_unchanged further false).mono fun _ hout _ => hout
    | true =>
      have here : p.EnsuresOn c (takenEntries p.engine keep mode ctx value) (k.Brings ctx mode value) := by
        unfold takenEntries
        split
        · exact .pure fun _ _ => nofun
        · exact bodies
      refine (here.bind fun here => ?_).mono fun _ hout _ => hout
      exact ensures_onward further _ fun hhere reached hv _ hb => Entries.forall_update hb (hhere reached hv)

/-- A loop: the entries of the iterations are merged one after the other. -/
theorem ensures_loopPair {name collection : String}
    (bodies : ∀ element, p.EnsuresOn c
      (branchEntries p.engine keep mode (iteration ctx name element) value)
      (k.Brings (iteration ctx name element) mode value))
    (hd : Directive.ofKey? key = some (.each name collection)) (taken : Bool) :
    p.EnsuresOn c (expandEntries p.engine keep mode ctx taken before ((key, value) :: rest))
      (k.Fills ctx mode ((key, value) :: rest) before) := by
  rw [expandEntries_each hd]
  apply (Run.Ensures.of_along (rules.evaluation.loopElements ctx collection)).bind
  intro elements
  have iterated : p.EnsuresOn c (elements.foldlM (entryStep p.engine keep mode ctx name value) [])
      fun merged => (k.stands mode value → ∀ entry ∈ ([] : Entries), k.entry entry.2) →
        k.stands mode value → ∀ entry ∈ merged, k.entry entry.2 := by
    refine Run.Ensures.foldlM
      (q := fun merged : Entries => k.stands mode value → ∀ entry ∈ merged, k.entry entry.2)
      elements [] fun merged element _ => ?_
    apply (rules.ensures_pass _).bind
    intro _
    apply (bodies element).bind
    intro entries
    refine (rules.ensures_mergeIteration (iteration ctx name element) name merged entries).mono
      fun out hout hentries entered hmerged stands => ?_
    exact hout (hmerged stands) (hentries (rules.entered entered) stands)
  refine (iterated.bind fun merged => ?_).mono fun _ hout _ => hout
  exact ensures_onward further false fun hmerged _ hv _ hb =>
    Entries.forall_update hb (hmerged (fun _ => nofun) hv)

end Pairs

/-! ## The value of an expression -/

section Results

variable (rules : ContractRules p c keep k) {ctx : Context}

include rules

/-- While references are kept, a value is kept as it is, or with the parts of the reference that it is. -/
theorem ensures_keptResult (ctx : Context) (result : Value) :
    p.EnsuresOn c (expandResult p.engine keep .preserving ctx result) fun v => k.reached ctx →
      (k.whole result ∧ ∀ template parameters, result.reference? = some (template, parameters) →
        k.refers ctx template parameters) → k.whole v ∧ (v ≠ .undefined → k.item v) := by
  unfold expandResult
  cases hr : result.reference? with
  | some r =>
    refine (rules.kept ctx r.1 r.2).mono fun v hv reached hresult => ?_
    have item := hv reached (hresult.2 _ _ rfl)
    exact ⟨rules.whole_of_item item, fun _ => item⟩
  | none => exact .pure fun _ hresult => ⟨hresult.1, rules.settled hresult.1 hr⟩

/-- While references are resolved, so are those that a value is or that are items of it. -/
theorem ensures_resolvedResult
    (references : ∀ template parameters,
      p.EnsuresOn c (referenceItems p.engine keep .resolving ctx template parameters)
        (k.Supplies ctx .resolving template parameters))
    (splices : ∀ items, p.EnsuresOn c (splice p.engine keep .resolving ctx items)
      (k.Spreads ctx .resolving items))
    (result : Value) :
    p.EnsuresOn c (expandResult p.engine keep .resolving ctx result) fun v => k.reached ctx →
      (∀ part ∈ result.children, k.entry part) → k.whole v ∧ (v ≠ .undefined → k.item v) := by
  unfold expandResult
  cases hr : result.reference? with
  | some r =>
    apply (references r.1 r.2).bind
    intro items
    split
    · rename_i item hl
      refine .pure fun hitems reached _ => ?_
      have hm := rules.whole_items (hitems reached (by simp)).1 item (by simp [hl])
      exact ⟨rules.whole_of_item hm, fun _ => hm⟩
    · refine .pure fun hitems reached _ => ?_
      obtain ⟨hwhole, hnone⟩ := hitems reached (by simp)
      exact ⟨hwhole, rules.settled hwhole hnone⟩
  | none =>
    -- A value that stays as it is has no references among its items.
    have unchanged (hi : ∀ items, result.list? = some items → ∀ x ∈ items, x.reference? = none) :
        p.EnsuresOn c (return result) fun v => k.reached ctx →
          (∀ part ∈ result.children, k.entry part) → k.whole v ∧ (v ≠ .undefined → k.item v) := by
      refine .pure fun _ parts => ?_
      have whole : k.whole result := by
        refine rules.whole_iff.2 ⟨parts, fun items hl x hx => ?_⟩
        refine rules.item_of_entry (parts x ?_) (hi items hl x hx)
        rw [Value.children_of_list? hl]
        exact hx
      exact ⟨whole, rules.settled whole hr⟩
    simp only
    cases hl : result.list? with
    | none => exact unchanged fun items h => by cases hl.symm.trans h
    | some items =>
      simp only
      split
      · refine (splices items).bind fun out => .pure fun hout reached parts => ?_
        rw [Value.children_of_list? hl] at parts
        have whole := rules.whole_list (hout reached parts (by simp))
        exact ⟨whole, fun _ => rules.settled whole rfl (by simp)⟩
      · rename_i hany
        refine unchanged fun xs hxs x hx => ?_
        cases hl.symm.trans hxs
        simpa using fun h => hany (List.any_eq_true.2 ⟨x, hx, h⟩)

end Results

/-! ## The body of a template -/

section Templates

variable (rules : ContractRules p c keep k) {inner : Context}

include rules

/-- The parts of a document stand where they should, also without its declarations of parameters. -/
theorem ensures_document (document : Value)
    (values : ∀ node, p.EnsuresOn c (expandValue p.engine keep .resolving inner node)
      (k.Fulfils inner .resolving node))
    (fills : ∀ pairs, p.EnsuresOn c (expandEntries p.engine keep .resolving inner false [] pairs)
      (k.Fills inner .resolving pairs [])) :
    p.EnsuresOn c (expandValue p.engine keep .resolving inner (withoutParameters document)) fun v =>
      p.Enters inner → p.Used document → k.whole v := by
  cases hp : document.pairs? with
  | none =>
    rw [withoutParameters, hp]
    exact (values document).mono fun v hv entered used =>
      (hv (rules.entered entered) (rules.used used)).1
  | some pairs =>
    simp only [withoutParameters, hp]
    rw [expandValue_entries rfl (by simp)]
    refine (fills _).bind fun out => .pure fun hout entered used => ?_
    refine rules.whole_map (hout (rules.entered entered) ?_ nofun)
    exact fun entry he => rules.entries (rules.used used) hp entry (List.mem_filter.1 he).1

theorem ensures_templateItems {ctx : Context} (a : Admitted p.engine ctx)
    (expanded : p.EnsuresOn c (expandValue p.engine keep .resolving inner (withoutParameters a.document))
      fun v => p.Enters inner → p.Used a.document → k.whole v) :
    p.EnsuresOn c (templateItems p.engine keep a inner) fun v =>
      p.Used a.document → k.whole v ∧ v.reference? = none := by
  unfold templateItems
  apply (rules.ensures_pass _).bind
  intro _
  apply (Run.Ensures.of_along (rules.evaluation.report _ _ _ _)).bind
  intro _
  refine expanded.attained.bind fun v => .pure fun hv _ entered used => ?_
  exact ⟨rules.contributed entered used hv.2 (hv.1 entered used), Passage.reference?_contribution v⟩

end Templates

/-! ## All rules -/

variable (rules : ContractRules p c keep k)

include rules

set_option linter.unusedSectionVars false

mutual

theorem ensures_expandValue (mode : Mode) (ctx : Context) (node : Value) :
    p.EnsuresOn c (expandValue p.engine keep mode ctx node) (k.Fulfils ctx mode node) := by
  cases hn : node.items? with
  | some items =>
    have := sizeOf_items hn
    rw [expandValue_items hn]
    refine (ensures_expandItems mode ctx false items).bind fun out => .pure fun hout reached stands => ?_
    have whole := rules.whole_list (hout reached (rules.items stands hn))
    exact ⟨whole, fun _ => rules.settled whole rfl⟩
  | none =>
    cases hp : node.pairs? with
    | some entries =>
      have := sizeOf_pairs hp
      have shape : node.isMapping = true := by
        rw [Value.isMapping, hp]
        rfl
      have entered (hr : mode = .preserving → node.reference? = none) :
          p.EnsuresOn c (expandValue p.engine keep mode ctx node) (k.Fulfils ctx mode node) := by
        have whole : p.EnsuresOn c (expandValue p.engine keep mode ctx node) fun v =>
            k.reached ctx → k.stands mode node → k.whole v := by
          rw [expandValue_entries hp hr]
          refine (ensures_expandEntries mode ctx false [] entries).bind fun out =>
            .pure fun hout reached stands => ?_
          exact rules.whole_map (hout reached (rules.entries stands hp) nofun)
        refine whole.attained.mono fun v hv reached stands => ⟨hv.1 reached stands, fun hn hu => ?_⟩
        exact rules.became reached stands shape hn hv.2 (rules.entry_of_whole (hv.1 reached stands) hu)
      cases mode with
      | resolving => exact entered (by simp)
      | preserving =>
        cases hr : node.reference? with
        | none => exact entered fun _ => hr
        | some r =>
          rw [expandValue_kept hp hr]
          refine (rules.kept ctx r.1 r.2).mono fun v hv reached stands => ?_
          have item := hv reached (rules.written stands hr)
          exact ⟨rules.whole_of_item item, fun _ _ => item⟩
    | none =>
      cases hr : node.reference? with
      | some r =>
        obtain rfl := reference_of_pairs hp hr
        rw [expandValue_reference]
        refine (ensures_referenceItems mode ctx r.1 r.2).mono fun v hv reached stands => ?_
        exact ⟨(hv reached (rules.refers stands rfl)).1, nofun⟩
      | none =>
        rw [expandValue_scalar hn hp hr]
        exact ensures_expandScalar mode ctx node hn hp
termination_by (mode.stage, Template.levelsLeft p.engine ctx, sizeOf node, 1)
decreasing_by
  all_goals first
    | exact earlier_rank (by decide)
    | exact earlier_size (sizeOf_pos _)
    | exact earlier_size (by omega)

theorem ensures_expandItems (mode : Mode) (ctx : Context) (taken : Bool) (items : List Value) :
    p.EnsuresOn c (expandItems p.engine keep mode ctx taken items) (k.Gathers ctx mode items) := by
  match items with
  | [] =>
    rw [expandItems_nil]
    exact .pure fun _ _ => nofun
  | item :: rest =>
    have further (taken : Bool) := ensures_expandItems mode ctx taken rest
    cases hr : item.reference? with
    | some r =>
      rw [expandItems_reference hr]
      apply (ensures_referenceItems mode ctx r.1 r.2).bind
      intro here
      exact ensures_append further false fun hhere reached stands =>
        rules.whole_items (hhere reached (rules.refers stands hr)).1
    | none =>
      have plain (hd : ∀ d body, directiveItem? item = some (d, body) → d = .insert) :=
        ensures_plainItem further rules (ensures_expandValue mode ctx item) (ensures_splice mode ctx) hr hd
          taken
      cases hd : directiveItem? item with
      | none => exact plain (by simp [hd])
      | some found =>
        obtain ⟨d, body⟩ := found
        have := sizeOf_body hd
        have branch (hb : Branch d) :=
          ensures_branchItem further rules (ensures_branchItems mode ctx body) hb hr hd taken
        cases d with
        | insert => exact plain (by simp [hd])
        | ifTrue c => exact branch (.inr ⟨c, .inl rfl⟩)
        | elseIf c => exact branch (.inr ⟨c, .inr rfl⟩)
        | otherwise => exact branch (.inl rfl)
        | malformedEach =>
          rw [expandItems_malformed hr hd]
          apply (Run.Ensures.of_along rules.evaluation.reportMalformedLoop).bind
          intro _
          exact (ensures_rest further false).mono fun _ hout _ => hout
        | each name collection =>
          exact ensures_loopItem further rules
            (fun element => ensures_branchItems mode (iteration ctx name element) body) hr hd taken
termination_by (mode.stage, Template.levelsLeft p.engine ctx, sizeOf items, 0)
decreasing_by
  all_goals exact earlier_size (by simp only [List.cons.sizeOf_spec]; omega)

theorem ensures_branchItems (mode : Mode) (ctx : Context) (body : Value) :
    p.EnsuresOn c (branchItems p.engine keep mode ctx body) (k.Yields ctx mode body) := by
  cases hn : body.items? with
  | some items =>
    have := sizeOf_items hn
    rw [branchItems_items hn]
    exact (ensures_expandItems mode ctx false items).mono fun out hout reached stands =>
      hout reached (rules.items stands hn)
  | none =>
    cases hr : body.reference? with
    | some r =>
      rw [branchItems_reference hr]
      exact (ensures_referenceItems mode ctx r.1 r.2).bind fun here => .pure fun hhere reached stands =>
        rules.whole_items (hhere reached (rules.refers stands hr)).1
    | none =>
      rw [branchItems_plain hn hr]
      apply (ensures_expandValue mode ctx body).bind
      intro v
      split
      · exact .pure fun _ _ _ => nofun
      · rename_i hu
        refine .pure fun hv reached stands => List.forall_mem_singleton.2 ?_
        exact (hv reached stands).2 hr hu
termination_by (mode.stage, Template.levelsLeft p.engine ctx, sizeOf body, 2)
decreasing_by
  all_goals first
    | exact earlier_rank (by decide)
    | exact earlier_size (sizeOf_pos _)
    | exact earlier_size (by omega)

theorem ensures_expandEntries (mode : Mode) (ctx : Context) (taken : Bool) (before pairs : Entries) :
    p.EnsuresOn c (expandEntries p.engine keep mode ctx taken before pairs)
      (k.Fills ctx mode pairs before) := by
  match pairs with
  | [] =>
    rw [expandEntries_nil]
    exact .pure fun _ _ hb => hb
  | (key, value) :: rest =>
    have further (taken : Bool) (next : Entries) := ensures_expandEntries mode ctx taken next rest
    cases hd : Directive.ofKey? key with
    | none => exact ensures_plainPair further rules (ensures_expandValue mode ctx value) hd taken
    | some d =>
      have branch (hb : Branch d) :
          p.EnsuresOn c (expandEntries p.engine keep mode ctx taken before ((key, value) :: rest))
            (k.Fills ctx mode ((key, value) :: rest) before) :=
        ensures_branchPair further rules (ensures_branchEntries mode ctx value) hb hd taken
      cases d with
      | ifTrue c => exact branch (.inr ⟨c, .inl rfl⟩)
      | elseIf c => exact branch (.inr ⟨c, .inr rfl⟩)
      | otherwise => exact branch (.inl rfl)
      | insert => exact ensures_insertPair further rules (ensures_expandValue .preserving ctx value) hd taken
      | malformedEach =>
        rw [expandEntries_malformed hd]
        apply (Run.Ensures.of_along rules.evaluation.reportMalformedLoop).bind
        intro _
        exact (ensures_unchanged further false).mono fun _ hout _ => hout
      | each name collection =>
        exact ensures_loopPair further rules
          (fun element => ensures_branchEntries mode (iteration ctx name element) value) hd taken
termination_by (mode.stage, Template.levelsLeft p.engine ctx, sizeOf pairs, 0)
decreasing_by
  all_goals first
    | exact earlier_size (by simp only [List.cons.sizeOf_spec, Prod.mk.sizeOf_spec]; omega)
    | exact earlier_preserved mode (by simp only [List.cons.sizeOf_spec, Prod.mk.sizeOf_spec]; omega)

theorem ensures_branchEntries (mode : Mode) (ctx : Context) (body : Value) :
    p.EnsuresOn c (branchEntries p.engine keep mode ctx body) (k.Brings ctx mode body) := by
  cases hn : body.items? with
  | some items =>
    have := sizeOf_items hn
    rw [branchEntries_items hn]
    refine (ensures_expandItems mode ctx false items).bind fun out => .pure fun hout reached stands => ?_
    exact Value.forall_merge nofun fun item hm =>
      (rules.whole_iff.1 (rules.whole_of_item (hout reached (rules.items stands hn) item hm))).1
  | none =>
    cases hp : body.pairs? with
    | some entries =>
      have := sizeOf_pairs hp
      rw [branchEntries_pairs hp]
      exact (ensures_expandEntries mode ctx false [] entries).mono fun out hout reached stands =>
        hout reached (rules.entries stands hp) nofun
    | none =>
      rw [branchEntries_scalar hn hp]
      apply (ensures_expandScalar mode ctx body hn hp).bind
      intro v
      split
      · exact .pure fun _ _ _ => nofun
      · rename_i hu
        refine .pure fun hv reached stands => List.forall_mem_singleton.2 ?_
        exact rules.entry_of_whole (hv reached stands).1 hu
termination_by (mode.stage, Template.levelsLeft p.engine ctx, sizeOf body, 2)
decreasing_by
  all_goals first
    | exact earlier_rank (by decide)
    | exact earlier_size (sizeOf_pos _)
    | exact earlier_size (by omega)

theorem ensures_expandScalar (mode : Mode) (ctx : Context) (node : Value) (hn : node.items? = none)
    (hp : node.pairs? = none) :
    p.EnsuresOn c (expandScalar p.engine keep mode ctx node) (k.Fulfils ctx mode node) := by
  cases ht : node.text? with
  | none =>
    rw [expandScalar_other ht]
    have whole := rules.whole_leaf hn hp
    exact .pure fun _ _ => ⟨whole, rules.settled whole⟩
  | some text =>
    obtain rfl := text_of_text? ht
    cases hw : isWholeExpression (Text.strip text) with
    | false =>
      rw [expandScalar_partial hw]
      apply (Run.Ensures.of_along (rules.evaluation.substitute ctx text)).bind
      intro out
      have whole := rules.whole_leaf (v := Value.text out) rfl rfl
      exact .pure fun _ _ _ => ⟨whole, fun _ => rules.settled whole rfl⟩
    | true =>
      rw [expandScalar_whole hw]
      apply (rules.evaluated mode ctx hw).bind
      intro result
      cases mode with
      | preserving =>
        refine (rules.ensures_keptResult ctx result).mono fun v hv hresult reached stands => ?_
        obtain ⟨hwhole, hitem⟩ := hv reached ((hresult reached stands).2 rfl)
        exact ⟨hwhole, fun _ => hitem⟩
      | resolving =>
        refine (rules.ensures_resolvedResult (ensures_referenceItems .resolving ctx)
          (ensures_splice .resolving ctx) result).mono fun v hv hresult reached stands => ?_
        obtain ⟨hwhole, hitem⟩ := hv reached (hresult reached stands).1
        exact ⟨hwhole, fun _ => hitem⟩
termination_by (mode.stage, Template.levelsLeft p.engine ctx, 0, 4)
decreasing_by all_goals exact earlier_rank (by decide)

theorem ensures_splice (mode : Mode) (ctx : Context) (items : List Value) :
    p.EnsuresOn c (splice p.engine keep mode ctx items) (k.Spreads ctx mode items) := by
  unfold splice
  have each : p.EnsuresOn c (items.mapM fun item =>
      match item.reference? with
      | none => return [item]
      | some (template, parameters) => do
        let here ← referenceItems p.engine keep mode ctx template parameters
        return here.list?.getD [])
      fun parts => ∀ out ∈ parts, k.Spreads ctx mode items out := by
    apply Run.Ensures.mapM
    intro item hitem
    cases hr : item.reference? with
    | none =>
      exact .pure fun _ entries _ => List.forall_mem_singleton.2 (rules.item_of_entry (entries item hitem) hr)
    | some r =>
      apply (ensures_referenceItems mode ctx r.1 r.2).bind
      intro here
      refine .pure fun hhere reached _ refers => rules.whole_items (hhere reached fun hm => ?_).1
      exact refers hm item hitem _ _ hr
  exact each.bind fun parts => .pure fun hparts reached entries refers =>
    List.forall_mem_flatten.2 fun out hout => hparts out hout reached entries refers
termination_by (mode.stage, Template.levelsLeft p.engine ctx, 0, 3)
decreasing_by all_goals exact earlier_rank (by decide)

theorem ensures_referenceItems (mode : Mode) (ctx : Context) (template parameters : Value) :
    p.EnsuresOn c (referenceItems p.engine keep mode ctx template parameters)
      (k.Supplies ctx mode template parameters) := by
  cases mode with
  | preserving =>
    rw [referenceItems_preserving]
    refine (rules.kept ctx template parameters).bind fun v => .pure fun hv reached refers => ?_
    exact ⟨rules.whole_list (List.forall_mem_singleton.2 (hv reached (refers rfl))), rfl⟩
  | resolving =>
    rw [referenceItems_resolving]
    apply (Run.Ensures.of_along (rules.evaluation.substituteValue ctx template)).bind
    intro name
    split
    · split
      · exact (rules.ensures_skipReference template).mono fun v hv _ _ _ => hv
      · rename_i s _
        apply (rules.ensures_fetch ctx (Text.strip s)).bind
        intro a
        apply (Run.Ensures.of_along (rules.given ctx parameters)).bind
        intro given
        have := a.levelsLeft_lt given
        have expanded := rules.ensures_document a.document
          (ensures_expandValue .resolving (a.context given))
          (ensures_expandEntries .resolving (a.context given) false [])
        exact (rules.ensures_templateItems a expanded).mono fun v hv _ used _ _ _ => hv used
    · exact (rules.ensures_skipReference template).mono fun v hv _ _ _ => hv
termination_by (mode.stage, Template.levelsLeft p.engine ctx, 0, 2)
decreasing_by all_goals exact earlier_left ‹_›

end

end ContractRules

end PipelineTemplate.Expansion
