import PipelineTemplate.Proofs.Expansion.Nesting

/-!
# Chains of templates

Templates that each refer to the next one and do nothing else. The expansion of such a chain is cut off
exactly if it is longer than the limit.
-/

namespace PipelineTemplate.Expansion

/-- A template of a chain: the name that it is referred to by, and its file. -/
structure Link where
  name : String
  path : String

/-- The document that refers to the first template of a chain; the end of a chain is empty. -/
def referring : List Link → Value
  | [] => .map []
  | link :: _ => .pairs [(.text "steps", .list [.pairs [(.text "template", .text link.name)]])]

/-- Each template of a chain is found from the directory of the one before and refers to the next one. -/
def Linked (engine : Engine) (world : World) (repository : Option String) :
    String → List Link → Prop
  | _, [] => True
  | directory, link :: rest =>
    (Text.hasInfix Embedded.opening link.name.toList = false ∧ Text.isBlankText link.name = false) ∧
    (∀ ctx s, ctx.directory = directory → ctx.repository = repository → s.world = world →
      ∃ t, (Template.locate engine ctx (Text.strip link.name)).start s =
        (.ok ⟨link.name, link.path, repository⟩, t)) ∧
    Template.Located.read ⟨link.name, link.path, repository⟩ (world.readText link.path) =
      .ok (referring rest) ∧
    Linked engine world repository (Path.parent link.path) rest

section Steps

variable {engine : Engine} {keep : Keeper} {ctx : Context} {s t : Session}

theorem reference_of_name (name : String) :
    (Value.pairs [(.text "template", .text name)]).reference? = some (.text name, .undefined) := by
  simp [Value.reference?, Entries.get?, Entries.getD, Value.equal]

theorem expandValue_end : expandValue engine keep .resolving ctx (.pairs []) = pure (.map []) := by
  rw [expandValue_entries rfl (by simp), expandEntries_nil, pure_bind]

/-- The end of a chain gives an empty mapping; its other documents refer to the next template. -/
theorem expandValue_referring (links : List Link) :
    expandValue engine keep .resolving ctx (withoutParameters (referring links)) =
      expandValue engine keep .resolving ctx (referring links) := by
  cases links with
  | nil =>
    have : expandValue engine keep .resolving ctx (.map []) = pure (.map []) := by
      rw [expandValue_entries rfl (by simp), expandEntries_nil, pure_bind]
    exact expandValue_end.trans this.symm
  | cons link rest => simp [withoutParameters, referring, Value.pairs?, Value.equal]

theorem start_referring_ok {link : Link} (rest : List Link) {v : Value}
    (h : (referenceItems engine keep .resolving ctx (.text link.name) .undefined).start s =
      (.ok v, t)) :
    ∃ w, (expandValue engine keep .resolving ctx (referring (link :: rest))).start s = (.ok w, t) := by
  have hd : Directive.ofKey? (.text "steps") = none := by decide
  unfold referring
  rw [expandValue_entries rfl (by simp), expandEntries_plain hd, expandValue_items rfl,
    expandItems_reference (reference_of_name _)]
  simp only [expandItems_nil, bind_assoc, pure_bind]
  rw [Run.start_bind_ok h, substituteValue_plain (by decide), pure_bind, expandEntries_nil]
  exact ⟨_, rfl⟩

theorem start_referring_error {link : Link} {rest : List Link} {f : Failure}
    (h : (referenceItems engine keep .resolving ctx (.text link.name) .undefined).start s =
      (.error f, t)) :
    (expandValue engine keep .resolving ctx (referring (link :: rest))).start s = (.error f, t) := by
  have hd : Directive.ofKey? (.text "steps") = none := by decide
  unfold referring
  rw [expandValue_entries rfl (by simp), expandEntries_plain hd, expandValue_items rfl,
    expandItems_reference (reference_of_name _)]
  simp only [bind_assoc]
  exact Run.start_bind_error h

variable (keep ctx) in
theorem start_reference {name : String} (hn : Text.hasInfix Embedded.opening name.toList = false)
    (hb : Text.isBlankText name = false) :
    (referenceItems engine keep .resolving ctx (.text name) .undefined).start s = (do
      let a ← fetch engine ctx (Text.strip name)
      templateItems engine keep a (a.context [])).start s := by
  rw [referenceItems_resolving, substituteValue_plain hn, pure_bind]
  simp only [hb]
  rfl

variable (keep) in
/-- The items of a template come from its body, in the world that was there before. -/
theorem start_templateItems (a : Admitted engine ctx) (t : Session) :
    ∃ u : Session, u.world = t.world ∧ (templateItems engine keep a (a.context [])).start t = (do
      return Template.contribution
        (← expandValue engine keep .resolving (a.context []) (withoutParameters a.document))).start u := by
  unfold templateItems
  refine ⟨_, ?_, (Run.start_bind_ok (Run.start_pass ..)).trans (Run.start_bind_ok (Run.start_report ..))⟩
  rfl

end Steps

section Chains

variable {engine : Engine} {keep : Keeper} {world : World} {repository : Option String}

variable (keep) in
/-- A chain within the limit is expanded, and a longer one is cut off. -/
theorem start_chain (hw : Path.isAbsolute world.workingDirectory = true) (links : List Link)
    {ctx : Context} {s : Session} (hs : s.world = world) (hr : ctx.repository = repository)
    (hl : Linked engine world repository ctx.directory links)
    (hd : (ctx.templates ++ links.map Link.path).Nodup) (hb : ctx.templates.length ≤ engine.limit) :
    (ctx.templates.length + links.length ≤ engine.limit ∧
      ∃ v t, (expandValue engine keep .resolving ctx (referring links)).start s = (.ok v, t)) ∨
    (engine.limit < ctx.templates.length + links.length ∧ ∃ f t, f.isRecursion = true ∧
      (expandValue engine keep .resolving ctx (referring links)).start s = (.error f, t)) := by
  induction links generalizing ctx s with
  | nil =>
    refine .inl ⟨by simpa using hb, .map [], s, ?_⟩
    rw [← expandValue_referring]
    exact congrArg (fun r : Run Value => r.start s) expandValue_end
  | cons link rest ih =>
    obtain ⟨⟨hn, hk⟩, hf, hread, hrest⟩ := hl
    obtain ⟨u, hu⟩ := hf ctx s rfl hr hs
    have hm : link.path ∉ ctx.templates := by
      intro hm
      exact (List.nodup_append.1 hd).2.2 _ hm _ (by simp) rfl
    rcases fetch_of_found hu (by rw [hs, hread]) with ⟨f, t, checked, hfe⟩ | ⟨checked, t, ht, hfe⟩
    · rcases check_eq_error checked with ⟨hm', -⟩ | ⟨-, hd', rfl⟩
      · exact absurd hm' hm
      · refine .inr ⟨?_, .templatesTooDeep link.name ctx.templates engine.limit, t, rfl, start_referring_error ?_⟩
        · simp only [Context.depth, List.length_cons] at hd' ⊢
          omega
        · rw [start_reference _ _ hn hk]
          exact Run.start_bind_error hfe
    · have hp := Template.locate_absolute (by rw [hs]; exact hw) hu
      have hdepth := (Template.check_eq_ok checked).2
      let a : Admitted engine ctx := ⟨⟨link.name, link.path, repository⟩, referring rest, checked⟩
      have ha : (a.context []).templates = ctx.templates ++ [link.path] := a.context_templates []
      have hlen : ((a.context []).templates.length : Int) = ctx.templates.length + 1 := by
        simp [ha]
      obtain ⟨w, hw', hitems⟩ := start_templateItems keep a t
      -- The body of the template is expanded one level further in, for the rest of the chain.
      have inner := @ih (a.context []) w (by rw [hw', ht, hs]) (by
          simp [a, Admitted.context, templateContext, Context.forTemplate, hr]) (by
          simpa [a, Admitted.context, templateContext, Context.forTemplate,
            Path.parent_ne_empty hp] using hrest) (by
          simpa [ha] using hd) (by
          simp only [Context.depth] at hdepth
          omega)
      rw [← expandValue_referring] at inner
      rcases inner with ⟨hi, v, x, hx⟩ | ⟨hi, f, x, hf, hx⟩
      · have hstart := (start_reference keep ctx hn hk).trans
          ((Run.start_bind_ok hfe).trans (hitems.trans (Run.start_bind_ok hx)))
        obtain ⟨result, hresult⟩ := start_referring_ok rest hstart
        exact .inl ⟨by rw [List.length_cons]; omega, result, x, hresult⟩
      · have hstart := (start_reference keep ctx hn hk).trans
          ((Run.start_bind_ok hfe).trans (hitems.trans (Run.start_bind_error hx)))
        exact .inr ⟨by rw [List.length_cons]; omega, f, x, hf, start_referring_error hstart⟩

end Chains

end PipelineTemplate.Expansion

namespace PipelineTemplate.Pipeline

open Expansion

/-- A pipeline that starts a chain of templates is cut off exactly if the chain is longer than the
limit. -/
theorem recursion_chain {engine : Engine} {text : String} {options : Options} {s : Session}
    {links : List Link} (hl : 0 ≤ engine.limit)
    (hs : Path.isAbsolute s.world.workingDirectory = true)
    (hd : Pipeline.document text options = .ok (referring links))
    (hlinked : Linked engine s.world
      (rootContext s.world.workingDirectory (referring links) options).repository
      (rootDirectory s.world.workingDirectory options) links)
    (hn : (links.map Link.path).Nodup) :
    (∀ f, f.isRecursion = true → ((expand engine text options).start s).1 ≠ .error f) ↔
      links.length ≤ engine.limit := by
  let ctx := rootContext s.world.workingDirectory (referring links) options
  let keep := keepWithin engine engine.nesting
  let file : Value := options.fileName.elim .null .text
  let started : Record := ⟨.info, Speaker.name .engine, "expansion_started",
    [("file", file), ("base_dir", .text ctx.directory)]⟩
  let u : Session := { s with trail := .entered ctx :: s.trail, journal := started :: s.journal }
  have hrun : (expand engine text options).start s = (do
      let result ← expandValue engine keep .resolving ctx (referring links)
      Run.report .info .engine "expansion_finished" [("file", file)]
      return result).start u := by
    unfold expand expandWith
    rw [hd]
    rfl
  rw [hrun]
  rcases @start_chain _ keep _ _ hs links ctx u rfl rfl hlinked
    (by simpa [ctx, rootContext] using hn) (by simpa [ctx, rootContext] using hl) with ⟨hle, v, t, hv⟩ | ⟨hlt, f, t, hf, hv⟩
  · have hlen : (links.length : Int) ≤ engine.limit := by
      simpa [ctx, rootContext] using hle
    rw [Run.start_bind_ok hv]
    exact ⟨fun _ => hlen, fun _ f _ he => nomatch he⟩
  · have hlen : engine.limit < (links.length : Int) := by
      simpa [ctx, rootContext] using hlt
    rw [Run.start_bind_error hv]
    exact ⟨fun h => absurd rfl (h f hf), fun h => by omega⟩

end PipelineTemplate.Pipeline
