import PipelineTemplate.Session

/-!
# Runs in sessions

What a composed run gives from a session, by what its parts give.
-/

namespace PipelineTemplate.Run

variable {α β : Type} (s : Session)

@[simp] theorem start_pure (a : α) : (pure a : Run α).start s = (.ok a, s) := rfl

@[simp] theorem start_get : (get : Run Session).start s = (.ok s, s) := rfl

@[simp] theorem start_modify (f : Session → Session) :
    (modify f : Run PUnit).start s = (.ok ⟨⟩, f s) := rfl

@[simp] theorem start_report (level : Level) (speaker : Speaker) (event : String)
    (fields : List (String × Value)) :
    (report level speaker event fields).start s =
      (.ok (), { s with journal := ⟨level, speaker.name, event, fields⟩ :: s.journal }) := rfl

@[simp] theorem start_pass (point : Waypoint) :
    (pass point).start s = (.ok (), { s with trail := point :: s.trail }) := rfl

@[simp] theorem start_look (path : String) (see : World → String → α) :
    (look path see).start s = (.ok (see s.world path), { s with visited := path :: s.visited }) := rfl

variable {s} {r : Run α} {next : α → Run β}

theorem start_bind_ok {a : α} {t : Session} (h : r.start s = (.ok a, t)) :
    (r >>= next).start s = (next a).start t := by
  change StateT.run (ExceptT.bindCont next (r.start s).1) (r.start s).2 = _
  rw [h]
  rfl

theorem start_bind_error {f : Failure} {t : Session} (h : r.start s = (.error f, t)) :
    (r >>= next).start s = (.error f, t) := by
  change StateT.run (ExceptT.bindCont next (r.start s).1) (r.start s).2 = _
  rw [h]
  rfl

/-- A composed run fails in its first part, or goes on from the value of that. -/
theorem start_bind_cases (r : Run α) (next : α → Run β) (s : Session) :
    (∃ f t, r.start s = (.error f, t) ∧ (r >>= next).start s = (.error f, t)) ∨
      ∃ a t, r.start s = (.ok a, t) ∧ (r >>= next).start s = (next a).start t := by
  rcases h : r.start s with ⟨_ | a, t⟩
  · exact .inl ⟨_, t, rfl, start_bind_error h⟩
  · exact .inr ⟨a, t, rfl, start_bind_ok h⟩

/-- A composed run that gives a value goes on from one that its first part gives. -/
theorem of_start_bind_ok {b : β} {t : Session} (h : (r >>= next).start s = (.ok b, t)) :
    ∃ a u, r.start s = (.ok a, u) ∧ (next a).start u = (.ok b, t) := by
  rcases start_bind_cases r next s with ⟨f, u, -, hb⟩ | ⟨a, u, hs, hb⟩
  · rw [hb] at h
    cases h
  · exact ⟨a, u, hs, hb.symm.trans h⟩

/-- A composed run that fails does so in its first part, or in what follows a value of that. -/
theorem of_start_bind_error {f : Failure} {t : Session} (h : (r >>= next).start s = (.error f, t)) :
    r.start s = (.error f, t) ∨ ∃ a u, r.start s = (.ok a, u) ∧ (next a).start u = (.error f, t) := by
  rcases start_bind_cases r next s with ⟨f', u, hs, hb⟩ | ⟨a, u, hs, hb⟩
  · cases hb.symm.trans h
    exact .inl hs
  · exact .inr ⟨a, u, hs, hb.symm.trans h⟩

/-- Composed runs have the same outcome if their first parts do, and what follows the value of these. -/
theorem start_bind_congr {r' : Run α} {next' : α → Run β} (h : r.start s = r'.start s)
    (hn : ∀ a t, r.start s = (.ok a, t) → (next a).start t = (next' a).start t) :
    (r >>= next).start s = (r' >>= next').start s := by
  rcases start_bind_cases r next s with ⟨f, t, hs, hb⟩ | ⟨a, t, hs, hb⟩
  · rw [hb, start_bind_error (h ▸ hs)]
  · rw [hb, start_bind_ok (h ▸ hs), hn a t hs]

end PipelineTemplate.Run
