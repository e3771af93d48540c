import PipelineTemplate.Pipeline
import PipelineTemplate.Proofs.Expansion.Composition
import PipelineTemplate.Proofs.Expansion.Fetch
import PipelineTemplate.Proofs.Path

/-!
# The nesting of templates

In every context that an expansion comes to, the templates around are distinct and no more than the limit,
and relative paths start from the directory of the innermost one. A run fails because of recursion exactly
when it finds a template that is around already, or one beyond the limit.
-/

namespace PipelineTemplate

/-- The failures by which recursion is cut off. -/
def Failure.isRecursion : Failure → Bool
  | .recursiveTemplate .. | .templatesTooDeep .. => true
  | _ => false

theorem Failure.isDeep_of_isRecursion {f : Failure} (h : f.isRecursion = true) : f.isDeep = true := by
  cases f <;> first | rfl | cases h

namespace Waypoint

/-- The context that an expansion is in at a point. -/
@[simp] def ctx : Waypoint → Context
  | .entered ctx => ctx
  | .found ctx _ _ => ctx

/-- The failure that a point means: that of a template which is around already, or else of one beyond the
limit. -/
def recursion? (limit : Int) : Waypoint → Option Failure
  | .entered _ => none
  | .found ctx reference path =>
    if path ∈ ctx.templates then some (.recursiveTemplate reference ctx.templates)
    else if ctx.templates.length = limit then some (.templatesTooDeep reference ctx.templates limit)
    else none

end Waypoint

namespace Expansion

/-- The templates around a point are distinct and within the limit, and the last of them gives the
directory. -/
structure Nested (limit : Int) (root : String) (ctx : Context) : Prop where
  distinct : ctx.templates.Nodup
  bounded : ctx.templates.length ≤ limit
  directory : ctx.directory = (ctx.templates.getLast?.map Path.parent).getD root

theorem Nested.admitted {engine : Engine} {root : String} {ctx : Context}
    (h : Nested engine.limit root ctx) (a : Admitted engine ctx)
    (ha : Path.isAbsolute a.located.path = true) (given : Entries) :
    Nested engine.limit root (a.context given) := by
  obtain ⟨hm, hd⟩ := Template.check_eq_ok a.checked
  refine ⟨?_, ?_, ?_⟩
  · rw [a.context_templates, List.nodup_append]
    refine ⟨h.distinct, by simp, fun x hx y hy => ?_⟩
    rw [List.mem_singleton.1 hy]
    exact fun he => hm (he ▸ hx)
  · simp only [a.context_templates, Context.depth, List.length_append, List.length_singleton] at hd ⊢
    omega
  · have hn := Path.parent_ne_empty ha
    rw [a.context_templates]
    simp [Admitted.context, templateContext, Context.forTemplate, hn]

/-- The points that a run passes are nested contexts, and the run fails because of recursion exactly by
what one of them means. -/
structure Accounted {α : Type} (limit : Int) (root : String) (s : Session)
    (o : Except Failure α × Session) : Prop where
  world : o.2.world = s.world
  trail : ∃ way, o.2.trail = way ++ s.trail ∧ (∀ point ∈ way, Nested limit root point.ctx) ∧
    ∀ f, f.isRecursion = true → (o.1 = .error f ↔ ∃ point ∈ way, point.recursion? limit = some f)

/-- A run is accounted for in every session with an absolute working directory. -/
def Tracked (limit : Int) (root : String) (α : Type) (r : Run α) : Prop :=
  ∀ s, Path.isAbsolute s.world.workingDirectory = true → Accounted limit root s (r.start s)

namespace Tracked

variable {limit : Int} {root : String} {α β : Type}

theorem quiet {r : Run α} (h : r.Quiet) : Tracked limit root α r := by
  refine fun s _ => ⟨h.world s, [], h.trail s, by simp, fun f hf => ?_⟩
  constructor
  · intro he
    have hd := h.shallow s f he
    rw [Failure.isDeep_of_isRecursion hf] at hd
    cases hd
  · simp

theorem enter {ctx : Context} (h : Nested limit root ctx) :
    Tracked limit root Unit (Run.pass (.entered ctx)) := by
  refine fun s _ => ⟨rfl, [.entered ctx], rfl, by simpa using h, fun f _ => ?_⟩
  simp [Waypoint.recursion?]

theorem endless : Tracked limit root α (throw .endless) := by
  refine fun s _ => ⟨rfl, [], rfl, by simp, fun f hf => ?_⟩
  constructor
  · intro he
    cases he
    cases hf
  · simp

end Tracked

section Composition

variable {limit : Int} {root : String} {α β : Type}

/-- A run that is accounted for up to some point, and from there on, is accounted for. -/
theorem Accounted.bind {r : Run α} {next : α → Run β} {s : Session} (hr : Accounted limit root s (r.start s))
    (hn : ∀ a t, r.start s = (.ok a, t) → t.world = s.world → Accounted limit root t ((next a).start t)) :
    Accounted limit root s ((r >>= next).start s) := by
  obtain ⟨hw, way, ht, hp, hf⟩ := hr
  rcases Run.start_bind_cases r next s with ⟨f, t, hs, hb⟩ | ⟨a, t, hs, hb⟩
  · rw [hs] at hw ht hf
    rw [hb]
    refine ⟨hw, way, ht, hp, fun g hg => ?_⟩
    rw [← hf g hg]
    simp
  · rw [hs] at hw ht hf
    obtain ⟨hw', more, ht', hp', hf'⟩ := hn a t hs hw
    rw [hb]
    refine ⟨hw'.trans hw, more ++ way, by rw [ht', ht, List.append_assoc], ?_, fun g hg => ?_⟩
    · intro point hm
      rcases List.mem_append.1 hm with hm | hm
      · exact hp' point hm
      · exact hp point hm
    · -- The first part has given a value, so no point on its way means a failure.
      have none (point : Waypoint) (hm : point ∈ way) : point.recursion? limit ≠ some g := by
        intro he
        have := (hf g hg).2 ⟨point, hm, he⟩
        cases this
      rw [hf' g hg]
      constructor
      · rintro ⟨point, hm, he⟩
        exact ⟨point, List.mem_append_left _ hm, he⟩
      · rintro ⟨point, hm, he⟩
        rcases List.mem_append.1 hm with hm | hm
        · exact ⟨point, hm, he⟩
        · exact absurd he (none point hm)

theorem Tracked.bind {r : Run α} {next : α → Run β} (hr : Tracked limit root α r)
    (hn : ∀ a, Tracked limit root β (next a)) : Tracked limit root β (r >>= next) :=
  fun s hs => (hr s hs).bind fun a t _ ht => hn a t (by rw [ht]; exact hs)

/-- A reference to a template is accounted for: a refusal is the failure that the point means. -/
theorem Accounted.fetch {engine : Engine} {ctx : Context} (hc : Nested engine.limit root ctx)
    (name : String) (s : Session) :
    Accounted engine.limit root s ((fetch engine ctx name).start s) := by
  have h := fetched engine ctx name s
  generalize (Expansion.fetch engine ctx name).start s = o at h ⊢
  cases h with
  | lost lost world trail =>
    obtain ⟨u, hu⟩ := lost
    refine ⟨world, [], trail, by simp, fun f hf => ?_⟩
    constructor
    · intro he
      cases he
      have shallow := locate_shallow hu
      rw [Failure.isDeep_of_isRecursion hf] at shallow
      cases shallow
    · simp
  | @refused located f t found checked world trail =>
    refine ⟨world, [_], trail, by simpa using hc, fun g hg => ?_⟩
    have hb := hc.bounded
    rcases check_eq_error checked with ⟨hm, rfl⟩ | ⟨hm, hd, rfl⟩
    · simp [Waypoint.recursion?, hm]
    · have : (ctx.templates.length : Int) = engine.limit := by
        simp only [Context.depth] at hd
        omega
      simp [Waypoint.recursion?, hm, this]
  | @unread located f t found checked unread world trail =>
    obtain ⟨hm, hd⟩ := Template.check_eq_ok checked
    refine ⟨world, [_], trail, by simpa using hc, fun g hg => ?_⟩
    have hl : (ctx.templates.length : Int) ≠ engine.limit := by
      simp only [Context.depth] at hd
      omega
    constructor
    · intro he
      cases he
      obtain ⟨rfl, -⟩ := Template.Located.read_deep unread (Failure.isDeep_of_isRecursion hg)
      cases hg
    · simp [Waypoint.recursion?, hm, hl]
  | @read a t found read world trail =>
    obtain ⟨hm, hd⟩ := Template.check_eq_ok a.checked
    have hl : (ctx.templates.length : Int) ≠ engine.limit := by
      simp only [Context.depth] at hd
      omega
    refine ⟨world, [_], trail, by simpa using hc, fun g hg => ?_⟩
    simp [Waypoint.recursion?, hm, hl]

/-- A template is found under an absolute path. -/
theorem absolute_of_fetch {engine : Engine} {ctx : Context} {name : String} {s t : Session}
    {a : Admitted engine ctx} (hs : Path.isAbsolute s.world.workingDirectory = true)
    (h : (fetch engine ctx name).start s = (.ok a, t)) : Path.isAbsolute a.located.path = true := by
  have hf := fetched engine ctx name s
  rw [h] at hf
  cases hf with
  | read found =>
    obtain ⟨u, hu⟩ := found
    exact Template.locate_absolute hs hu

end Composition

section Runs

variable (engine : Engine) (root : String)

/-- All steps of expansions are accounted for in nested contexts, if what the keeper does is. -/
theorem tracked_rules {keeper : Keeper}
    (hk : ∀ ctx parameters, Nested engine.limit root ctx →
      Tracked engine.limit root Value (keeper ctx parameters)) :
    ExpansionRules engine @Run.Quiet (fun α r => Tracked engine.limit root α (r keeper))
      fun _ ctx => Nested engine.limit root ctx where
  leaf := Tracked.quiet
  bind := Tracked.bind
  keep parameters hc := hk _ parameters hc
  enter := Tracked.enter
  iteration name element hc := ⟨hc.distinct, hc.bounded, hc.directory⟩
  preserved hc := hc
  fetch := by
    intro ctx name next hc hn s hs
    refine (Accounted.fetch hc name s).bind fun a t ha ht => ?_
    refine hn a (fun given => hc.admitted a (absolute_of_fetch hs ha) given) t ?_
    rw [ht]
    exact hs

theorem tracked_keepWithin (n : Nat) (ctx : Context) (parameters : Value)
    (hc : Nested engine.limit root ctx) :
    Tracked engine.limit root Value (keepWithin engine n ctx parameters) := by
  induction n generalizing ctx parameters with
  | zero => exact Tracked.endless
  | succ n ih =>
    exact (tracked_rules engine root ih).expandValue Run.quiet_evaluation hc parameters

theorem tracked_expandValue (n : Nat) (mode : Mode) {ctx : Context} (hc : Nested engine.limit root ctx)
    (node : Value) :
    Tracked engine.limit root Value (expandValue engine (keepWithin engine n) mode ctx node) :=
  (tracked_rules engine root (tracked_keepWithin engine root n)).expandValue Run.quiet_evaluation hc node

end Runs

end Expansion

namespace Pipeline

open Expansion

/-- The root context is nested in no template. -/
theorem nested_rootContext {limit : Int} (hl : 0 ≤ limit) (directory : String) (document : Value)
    (options : Options) :
    Nested limit (rootDirectory directory options) (rootContext directory document options) :=
  ⟨List.nodup_nil, hl, rfl⟩

theorem document_shallow {text : String} {options : Options} {f : Failure}
    (h : Pipeline.document text options = .error f) : f.isRecursion = false := by
  unfold Pipeline.document Yaml.load at h
  cases hr : Yaml.read text with
  | error fault =>
    rw [hr] at h
    cases fault <;> cases h <;> rfl
  | ok v =>
    rw [hr] at h
    cases v <;> cases h

/-- A whole expansion is accounted for. -/
theorem accounted_expandWith (engine : Engine) (text : String) (options : Options) (s : Session) (n : Nat)
    (hl : 0 ≤ engine.limit) (hs : Path.isAbsolute s.world.workingDirectory = true) :
    Accounted engine.limit (rootDirectory s.world.workingDirectory options) s
      ((expandWith engine (keepWithin engine n) text options).start s) := by
  unfold expandWith
  cases hd : Pipeline.document text options with
  | error f =>
    refine ⟨rfl, [], rfl, by simp, fun g hg => ?_⟩
    constructor
    · intro he
      have : f = g := Except.error.inj he
      rw [← this, document_shallow hd] at hg
      cases hg
    · simp
  | ok document =>
    let root := rootDirectory s.world.workingDirectory options
    let ctx := rootContext s.world.workingDirectory document options
    have hc : Nested engine.limit root ctx := nested_rootContext hl _ document options
    let file : Value := options.fileName.elim .null .text
    have tracked : Tracked engine.limit root Value (do
        Run.pass (.entered ctx)
        Run.report .info .engine "expansion_started" [("file", file), ("base_dir", .text ctx.directory)]
        let result ← Expansion.expandValue engine (keepWithin engine n) .resolving ctx document
        Run.report .info .engine "expansion_finished" [("file", file)]
        return result) := by
      refine (Tracked.enter hc).bind fun _ => (Tracked.quiet (Run.quiet_report ..)).bind fun _ => ?_
      refine (tracked_expandValue engine root n .resolving hc document).bind fun v => ?_
      exact (Tracked.quiet (Run.quiet_report ..)).bind fun _ => Tracked.quiet (Run.quiet_pure v)
    exact tracked s hs

end Pipeline

end PipelineTemplate
