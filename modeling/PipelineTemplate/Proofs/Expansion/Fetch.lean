import PipelineTemplate.Proofs.Expansion.Composition
import PipelineTemplate.Proofs.Run.Stretch

/-!
# The admission of templates

A reference to a template ends in one of four ways: the template is not found, it is refused, its file
has no document, or it is admitted.
-/

namespace PipelineTemplate.Expansion

variable {engine : Engine} {ctx : Context} {name : String} {s : Session}

/-- A template is refused if it is around this point already, or else if the limit is reached. -/
theorem check_eq_error {t : Template.Located} {f : Failure}
    (h : Template.check engine ctx t = .error f) :
    (t.path ∈ ctx.templates ∧ f = .recursiveTemplate t.reference ctx.templates) ∨
      (t.path ∉ ctx.templates ∧ engine.limit ≤ ctx.depth ∧
        f = .templatesTooDeep t.reference ctx.templates engine.limit) := by
  by_cases hm : t.path ∈ ctx.templates
  · simp [Template.check, Template.demandNew, hm, bind, Except.bind] at h
    exact .inl ⟨hm, h.symm⟩
  · by_cases hd : engine.limit ≤ ctx.depth
    · simp [Template.check, Template.demandNew, hm, hd, bind, Except.bind] at h
      exact .inr ⟨hm, hd, h.symm⟩
    · simp [Template.check, Template.demandNew, hm, hd, bind, Except.bind] at h
      cases h

/-- What a reference to a template leads to in a session. -/
inductive Fetched (engine : Engine) (ctx : Context) (name : String) (s : Session) :
    Except Failure (Admitted engine ctx) × Session → Prop where
  /-- The template is not found, and nothing is passed. -/
  | lost {f : Failure} {t : Session}
      (lost : ∃ u, (Template.locate engine ctx name).start s = (.error f, u))
      (world : t.world = s.world) (trail : t.trail = s.trail) :
      Fetched engine ctx name s (.error f, t)
  /-- The template is found, but may not be expanded at this point. -/
  | refused {located : Template.Located} {f : Failure} {t : Session}
      (found : ∃ u, (Template.locate engine ctx name).start s = (.ok located, u))
      (checked : Template.check engine ctx located = .error f) (world : t.world = s.world)
      (trail : t.trail = .found ctx located.reference located.path :: s.trail) :
      Fetched engine ctx name s (.error f, t)
  /-- The file of the template has no document. -/
  | unread {located : Template.Located} {f : Failure} {t : Session}
      (found : ∃ u, (Template.locate engine ctx name).start s = (.ok located, u))
      (checked : Template.check engine ctx located = .ok ())
      (unread : located.read (s.world.readText located.path) = .error f) (world : t.world = s.world)
      (trail : t.trail = .found ctx located.reference located.path :: s.trail) :
      Fetched engine ctx name s (.error f, t)
  | read {a : Admitted engine ctx} {t : Session}
      (found : ∃ u, (Template.locate engine ctx name).start s = (.ok a.located, u))
      (read : a.located.read (s.world.readText a.located.path) = .ok a.document)
      (world : t.world = s.world)
      (trail : t.trail = .found ctx a.located.reference a.located.path :: s.trail) :
      Fetched engine ctx name s (.ok a, t)

theorem start_document (t : Template.Located) (s : Session) :
    (Template.document t).start s =
      (t.read (s.world.readText t.path), { s with visited := t.path :: s.visited }) :=
  Run.start_bind_ok (Run.start_look ..)

theorem fetched (engine : Engine) (ctx : Context) (name : String) (s : Session) :
    Fetched engine ctx name s ((fetch engine ctx name).start s) := by
  have quiet := (Run.quiet_search engine).locate ctx name
  unfold fetch
  rcases hl : (Template.locate engine ctx name).start s with ⟨f | located, u⟩
  · rw [Run.start_bind_error hl]
    exact .lost ⟨u, hl⟩ (by rw [← quiet.world s, hl]) (by rw [← quiet.trail s, hl])
  · rw [Run.start_bind_ok hl, Run.start_bind_ok (Run.start_pass ..)]
    generalize hv : { u with trail := .found ctx located.reference located.path :: u.trail } = v
    have hw : v.world = s.world := by rw [← hv, ← quiet.world s, hl]
    have ht : v.trail = .found ctx located.reference located.path :: s.trail := by
      rw [← hv, ← quiet.trail s, hl]
    split
    · rename_i f hc
      exact .refused ⟨u, hl⟩ hc hw ht
    · rename_i hc
      have hd := start_document located v
      cases hr : located.read (v.world.readText located.path) with
      | error f =>
        rw [hr] at hd
        rw [Run.start_bind_error hd]
        exact .unread ⟨u, hl⟩ hc (by rw [← hw, hr]) hw ht
      | ok document =>
        rw [hr] at hd
        rw [Run.start_bind_ok hd]
        exact .read ⟨u, hl⟩ (by rw [← hw, hr]) hw ht

/-- A template that is found and has a document is admitted, if it is not refused. -/
theorem fetch_of_found {located : Template.Located} {document : Value} {u : Session}
    (hl : (Template.locate engine ctx name).start s = (.ok located, u))
    (hr : located.read (s.world.readText located.path) = .ok document) :
    (∃ f t, Template.check engine ctx located = .error f ∧ (fetch engine ctx name).start s = (.error f, t)) ∨
      ∃ (hc : Template.check engine ctx located = .ok ()) (t : Session), t.world = s.world ∧
        (fetch engine ctx name).start s = (.ok ⟨located, document, hc⟩, t) := by
  have h := fetched engine ctx name s
  generalize hf : (fetch engine ctx name).start s = outcome at h
  cases h with
  | lost lost =>
    obtain ⟨v, hv⟩ := lost
    cases hl.symm.trans hv
  | refused found checked =>
    obtain ⟨v, hv⟩ := found
    cases hl.symm.trans hv
    exact .inl ⟨_, _, checked, rfl⟩
  | unread found _ unread =>
    obtain ⟨v, hv⟩ := found
    cases hl.symm.trans hv
    cases hr.symm.trans unread
  | @read a t found read world =>
    obtain ⟨v, hv⟩ := found
    obtain ⟨located', document', hc⟩ := a
    cases hl.symm.trans hv
    cases hr.symm.trans read
    exact .inr ⟨hc, t, world, rfl⟩

/-- A search that fails does not do so because of recursion. -/
theorem locate_shallow {f : Failure} {u : Session}
    (h : (Template.locate engine ctx name).start s = (.error f, u)) : f.isDeep = false :=
  ((Run.quiet_search engine).locate ctx name).shallow s f (by rw [h])

/-! ## Expansions go on -/

theorem advances_fetch (ctx : Context) (name : String) : (fetch engine ctx name).Advances := by
  intro s
  have h := fetched engine ctx name s
  generalize (fetch engine ctx name).start s = o at h ⊢
  cases h with
  | lost _ world trail => exact ⟨world, trail.symm ▸ List.suffix_rfl⟩
  | refused _ _ world trail => exact ⟨world, trail.symm ▸ List.suffix_cons _ _⟩
  | unread _ _ _ world trail => exact ⟨world, trail.symm ▸ List.suffix_cons _ _⟩
  | read _ _ world trail => exact ⟨world, trail.symm ▸ List.suffix_cons _ _⟩

theorem advances_rules {keeper : Keeper} (hk : ∀ ctx parameters, (keeper ctx parameters).Advances) :
    ExpansionRules engine @Run.Quiet (fun _ r => (r keeper).Advances) fun _ _ => True where
  leaf := Run.Quiet.advances
  bind := Run.advances_bind
  keep parameters _ := hk _ parameters
  enter _ := Run.advances_pass _
  iteration _ _ _ := trivial
  preserved _ := trivial
  fetch name _ _ h := Run.advances_bind (advances_fetch _ name) fun t => h t fun _ => trivial

theorem advances_keepWithin (n : Nat) (ctx : Context) (parameters : Value) :
    (keepWithin engine n ctx parameters).Advances := by
  induction n generalizing ctx parameters with
  | zero => exact fun s => .refl s
  | succ n ih => exact (advances_rules ih).expandValue Run.quiet_evaluation trivial parameters

theorem advances_expandValue (n : Nat) (mode : Mode) (ctx : Context) (node : Value) :
    (expandValue engine (keepWithin engine n) mode ctx node).Advances :=
  (advances_rules (advances_keepWithin n)).expandValue Run.quiet_evaluation trivial node

theorem advances_given (n : Nat) (ctx : Context) (parameters : Value) :
    (given engine (keepWithin engine n) ctx parameters).Advances := by
  unfold given
  split
  · exact (Run.quiet_pure _).advances
  · rw [map_eq_pure_bind]
    refine Run.advances_bind ?_ fun _ => (Run.quiet_pure _).advances
    exact advances_expandValue n .preserving ctx parameters

end PipelineTemplate.Expansion
