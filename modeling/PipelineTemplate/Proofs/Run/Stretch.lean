import PipelineTemplate.Proofs.Run.Course
import PipelineTemplate.Proofs.Run.Quiet

/-!
# Stretches of sessions

A run goes on from a session to another in the same world, and adds to the way. Within a stretch of
sessions, from a first one to a last one, what a run gives may depend on the points that are passed in the
whole stretch.
-/

namespace PipelineTemplate

/-- What a session has become: the world is the same, and the way goes on. -/
structure Session.Before (s t : Session) : Prop where
  world : t.world = s.world
  trail : s.trail <:+ t.trail

namespace Session.Before

variable {s t u : Session}

theorem refl (s : Session) : s.Before s := ⟨rfl, List.suffix_rfl⟩

theorem trans (h : s.Before t) (h' : t.Before u) : s.Before u :=
  ⟨h'.world.trans h.world, h.trail.trans h'.trail⟩

end Session.Before

/-- A point is passed in a stretch of sessions. -/
def Session.Passes (first last : Session) (point : Waypoint) : Prop :=
  ∃ way, last.trail = way ++ first.trail ∧ point ∈ way

theorem Session.passes_of_between {first s t last : Session} {point : Waypoint} (hs : first.Before s)
    (ht : t.trail = point :: s.trail) (hl : t.Before last) : first.Passes last point := by
  obtain ⟨before, hb⟩ := hs.trail
  obtain ⟨after, ha⟩ := hl.trail
  refine ⟨after ++ point :: before, ?_, by simp⟩
  rw [← ha, ht, ← hb, List.append_assoc, List.cons_append]

/-- Runs go on. -/
def Course.onward : Course := ⟨Session.Before, .refl, .trans⟩

namespace Run

/-- A run goes on from every session. -/
def Advances {α : Type} (r : Run α) : Prop := ∀ s : Session, s.Before (r.start s).2

/-- A run goes on, and what it gives within a stretch of sessions has a property. -/
structure Gives {α : Type} (first last : Session) (r : Run α) (p : α → Prop) : Prop where
  advances : r.Advances
  holds : ∀ s a t, first.Before s → r.start s = (.ok a, t) → t.Before last → p a

variable {α β : Type} {first last : Session} {p q : α → Prop}

theorem Quiet.advances {r : Run α} (h : r.Quiet) : r.Advances :=
  fun s => ⟨h.world s, (h.trail s).symm ▸ List.suffix_rfl⟩

theorem advances_bind {r : Run α} {next : α → Run β} (hr : r.Advances) (hn : ∀ a, (next a).Advances) :
    (r >>= next).Advances := @along_bind α β .onward r next hr hn

theorem advances_pass (point : Waypoint) : (pass point).Advances :=
  fun _ => ⟨rfl, ⟨[point], rfl⟩⟩

/-- Evaluations go on. -/
theorem advances_evaluation : EvaluationRules @Advances where
  pure a := (quiet_pure a).advances
  bind := advances_bind
  report level speaker event fields := (quiet_report level speaker event fields).advances
  remembered text := (quiet_remembered text).advances
  apply op a b := (quiet_apply op a b).advances
  call f arguments := (quiet_call f arguments).advances
  notSerializable := (quiet_throw rfl).advances

/-- A point that a run passes within a stretch of sessions is passed in it. -/
theorem passes_of_start_pass {point : Waypoint} {s t : Session} {u : Unit} (hs : first.Before s)
    (h : (pass point).start s = (.ok u, t)) (hl : t.Before last) : first.Passes last point := by
  obtain ⟨-, rfl⟩ := Prod.mk.inj h
  exact Session.passes_of_between hs rfl hl

namespace Gives

/-- To give is to ensure while going on. -/
theorem ensures {r : Run α} (h : Gives first last r p) : Ensures .onward first last r p :=
  ⟨h.advances, h.holds⟩

theorem of_ensures {r : Run α} (h : Ensures .onward first last r p) : Gives first last r p :=
  ⟨h.along, h.holds⟩

theorem of_advances {r : Run α} (h : r.Advances) : Gives first last r fun _ => True :=
  ⟨h, fun _ _ _ _ _ _ => trivial⟩

theorem pure {a : α} (h : p a) : Gives first last (Pure.pure a) p := of_ensures (.pure h)

/-- The part that follows may count on what the first part gives. -/
theorem bind {r : Run α} {next : α → Run β} {q : β → Prop} (hr : Gives first last r p)
    (hn : ∀ a, Gives first last (next a) fun b => p a → q b) : Gives first last (r >>= next) q :=
  of_ensures (hr.ensures.bind fun a => (hn a).ensures)

theorem pass (point : Waypoint) :
    Gives first last (Run.pass point) fun _ => first.Passes last point :=
  ⟨advances_pass point, fun _ _ _ hs h hl => passes_of_start_pass hs h hl⟩

end Gives

end Run

end PipelineTemplate
