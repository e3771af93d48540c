import PipelineTemplate.Pipeline
import PipelineTemplate.Proofs.Expansion.Composition
import PipelineTemplate.Proofs.Run.Reuse

/-!
# One engine for many calls

An engine that serves calls one after the other remembers readings of expressions and locations of
repositories from one call to the next, also from calls that fail. Each call nevertheless gives the same,
and leaves the same counters, as it would with an engine that is new except for the counters.
-/

namespace PipelineTemplate

namespace Expansion

variable {engine : Engine}

theorem repeatable_fetch (ctx : Context) (name : String) : (fetch engine ctx name).Repeatable engine := by
  unfold fetch
  refine Run.repeatable_bind ((Run.repeatable_search engine).locate ctx name) fun located => ?_
  refine Run.repeatable_bind (Run.repeatable_pass _) fun _ => ?_
  split
  · exact Run.repeatable_throw _
  · refine Run.repeatable_bind ?_ fun document => Run.repeatable_pure _
    exact Run.repeatable_bind (Run.repeatable_look _ _) fun content => Run.repeatable_settled _

/-- The steps of an expansion may be repeated if its keeper may be. -/
theorem repeatable_rules {keeper : Keeper} (hk : ∀ ctx parameters, (keeper ctx parameters).Repeatable engine) :
    ExpansionRules engine (fun _ r => r.Repeatable engine) (fun _ r => (r keeper).Repeatable engine)
      fun _ _ => True where
  leaf := id
  bind := Run.repeatable_bind
  keep parameters _ := hk _ parameters
  enter _ := Run.repeatable_pass _
  iteration _ _ _ := trivial
  preserved _ := trivial
  fetch name _ _ h := Run.repeatable_bind (repeatable_fetch _ name) fun t => h t fun _ => trivial

theorem repeatable_keepWithin (n : Nat) (ctx : Context) (parameters : Value) :
    (keepWithin engine n ctx parameters).Repeatable engine := by
  induction n generalizing ctx parameters with
  | zero => exact Run.repeatable_throw _
  | succ n ih => exact (repeatable_rules ih).expandValue (Run.repeatable_evaluation engine) trivial parameters

theorem repeatable_expandValue (n : Nat) (mode : Mode) (ctx : Context) (node : Value) :
    (expandValue engine (keepWithin engine n) mode ctx node).Repeatable engine :=
  (repeatable_rules (repeatable_keepWithin n)).expandValue (Run.repeatable_evaluation engine) trivial node

end Expansion

namespace Pipeline

variable {engine : Engine}

theorem repeatable_expand (text : String) (options : Options) : (expand engine text options).Repeatable engine := by
  unfold expand expandWith
  refine Run.repeatable_bind (Run.repeatable_lift _) fun source => ?_
  refine Run.repeatable_get (fun s => ?_) fun s t hw _ => by simp only [hw]
  refine Run.repeatable_bind (Run.repeatable_pass _) fun _ => ?_
  refine Run.repeatable_bind (Run.repeatable_report _ _ _ _) fun _ => ?_
  refine Run.repeatable_bind (Expansion.repeatable_expandValue _ _ _ _) fun result => ?_
  exact Run.repeatable_bind (Run.repeatable_report _ _ _ _) fun _ => Run.repeatable_pure result

theorem repeatable_expandText (text : String) (options : Options) :
    (expandText engine text options).Repeatable engine := by
  refine Run.repeatable_bind (repeatable_expand text options) fun v => ?_
  split
  · exact Run.repeatable_pure _
  · exact Run.repeatable_throw _

theorem repeatable_readFile (path : String) : (readFile path).Repeatable engine := by
  refine Run.repeatable_bind (Run.repeatable_look _ _) fun content => ?_
  split
  · exact Run.repeatable_pure _
  · exact Run.repeatable_throw _
  · exact Run.repeatable_throw _
  · exact Run.repeatable_throw _

theorem repeatable_expandFile (path : String) (supplied : Except Failure Options) :
    (expandFile engine path supplied).Repeatable engine := by
  refine Run.repeatable_bind (Run.repeatable_absolute path) fun path => ?_
  refine Run.repeatable_bind (repeatable_readFile path) fun text => ?_
  exact Run.repeatable_bind (Run.repeatable_lift supplied) fun options => repeatable_expandText text _

/-! ## Sequences of calls -/

/-- What is asked of an engine. Options that do not fit are a failure of the call. -/
inductive Call where
  | expand (text : String) (supplied : Except Failure Options)
  | expandText (text : String) (supplied : Except Failure Options)
  | expandFile (path : String) (supplied : Except Failure Options)
  | resetCounters

/-- What a call gives. -/
inductive Answer where
  | value (v : Value)
  | text (s : String)
  | done

def Call.perform (engine : Engine) : Call → Run Answer
  | .expand text supplied => do return .value (← Pipeline.expand engine text (← supplied))
  | .expandText text supplied => do return .text (← Pipeline.expandText engine text (← supplied))
  | .expandFile path supplied => do return .text (← Pipeline.expandFile engine path supplied)
  | .resetCounters => do
    modify fun s => { s with counters := [] }
    return .done

/-- A call, with the files and the working directory that it finds. -/
structure Visit where
  disk : Disk
  workingDirectory : String
  call : Call

/-- The world at a visit. -/
def Visit.world (environment : Environment) (v : Visit) : World := ⟨v.disk, environment, v.workingDirectory⟩

/-- What the calls of one engine give, and the counters that each leaves. A session goes through all of
them, whether they fail or not. -/
def serve (engine : Engine) (environment : Environment) :
    Session → List Visit → List (Except Failure Answer × Counters)
  | _, [] => []
  | s, visit :: rest =>
    let (answer, after) := (visit.call.perform engine).start { s with world := visit.world environment }
    (answer, after.counters) :: serve engine environment after rest

/-- What the calls give if each has an engine of its own, with the counters that the one before left. -/
def serveAfresh (engine : Engine) (environment : Environment) :
    Counters → List Visit → List (Except Failure Answer × Counters)
  | _, [] => []
  | counters, visit :: rest =>
    let (answer, after) := (visit.call.perform engine).start { counters, world := visit.world environment }
    (answer, after.counters) :: serveAfresh engine environment after.counters rest

theorem repeatable_perform (call : Call) : (call.perform engine).Repeatable engine := by
  cases call with
  | expand text supplied =>
    refine Run.repeatable_bind (Run.repeatable_lift supplied) fun options => ?_
    exact Run.repeatable_bind (repeatable_expand text options) fun v => Run.repeatable_pure _
  | expandText text supplied =>
    refine Run.repeatable_bind (Run.repeatable_lift supplied) fun options => ?_
    exact Run.repeatable_bind (repeatable_expandText text options) fun s => Run.repeatable_pure _
  | expandFile path supplied =>
    exact Run.repeatable_bind (repeatable_expandFile path supplied) fun s => Run.repeatable_pure _
  | resetCounters =>
    intro s t h
    exact ⟨rfl, ⟨h.world, rfl, h.left.withCounters _, h.right.withCounters _⟩, rfl⟩

/-- A session that is sound serves as well as a new one with its counters. -/
theorem serve_of_sound {environment : Environment} {s : Session} (h : s.Sound engine)
    (he : s.world.environment = environment) (visits : List Visit) :
    serve engine environment s visits = serveAfresh engine environment s.counters visits := by
  induction visits generalizing s with
  | nil => rfl
  | cons visit rest ih =>
    have hmatch : Session.Matches engine { s with world := visit.world environment }
        { counters := s.counters, world := visit.world environment } :=
      ⟨rfl, rfl, h.visit he.symm, Session.sound_fresh _ _⟩
    obtain ⟨hsame, hafter, hworld⟩ := repeatable_perform visit.call _ _ hmatch
    have hrest := ih hafter.left (by rw [hworld]; rfl)
    rw [serve, serveAfresh]
    simp only
    rw [hrest, hsame, hafter.counters]

/-- For every sequence of calls on one engine, with files that may change from call to call, each call
gives the same and leaves the same counters as on an engine that starts with the counters that the call
before left and remembers nothing else. -/
theorem serve_eq_serveAfresh (engine : Engine) (environment : Environment) (counters : Counters)
    (visits : List Visit) :
    serve engine environment { counters, world := { environment } } visits =
      serveAfresh engine environment counters visits :=
  serve_of_sound (Session.sound_fresh counters { environment }) rfl visits

end Pipeline

end PipelineTemplate
