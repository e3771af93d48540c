import PipelineTemplate.Proofs.Run.Start

/-!
# Courses of runs

A course says how runs may lead from one session to another. Within a stretch of sessions, from a first
one to a last one, a run on a course ensures what it gives in every session that the course leads to.
-/

namespace PipelineTemplate

/-- How runs may lead from one session to another, step by step. -/
structure Course where
  leads : Session → Session → Prop
  refl : ∀ s, leads s s
  trans : ∀ {s t u}, leads s t → leads t u → leads s u

namespace Run

variable {α β : Type} {c : Course} {first last : Session}

/-- A run stays on a course from every session. -/
def Along (c : Course) (r : Run α) : Prop := ∀ s : Session, c.leads s (r.start s).2

/-- A run stays on a course, and what it gives within a stretch of it has a property. -/
structure Ensures (c : Course) (first last : Session) (r : Run α) (p : α → Prop) : Prop where
  along : r.Along c
  holds : ∀ s a t, c.leads first s → r.start s = (.ok a, t) → c.leads t last → p a

theorem along_pure (a : α) : (pure a : Run α).Along c := fun s => c.refl s

theorem along_bind {r : Run α} {next : α → Run β} (hr : r.Along c) (hn : ∀ a, (next a).Along c) :
    (r >>= next).Along c := by
  intro s
  have h := hr s
  rcases start_bind_cases r next s with ⟨f, t, hs, hb⟩ | ⟨a, t, hs, hb⟩
  · rw [hs] at h
    rw [hb]
    exact h
  · rw [hs] at h
    rw [hb]
    exact c.trans h (hn a t)

namespace Ensures

variable {p q : α → Prop}

theorem mono {r : Run α} (h : Ensures c first last r p) (hpq : ∀ a, p a → q a) :
    Ensures c first last r q :=
  ⟨h.along, fun s a t hs ha hl => hpq a (h.holds s a t hs ha hl)⟩

theorem of_along {r : Run α} (h : r.Along c) : Ensures c first last r fun _ => True :=
  ⟨h, fun _ _ _ _ _ _ => trivial⟩

/-- What a run gives, it gives somewhere within the stretch. -/
theorem attained {r : Run α} (h : Ensures c first last r p) :
    Ensures c first last r fun a =>
      p a ∧ ∃ s t, c.leads first s ∧ r.start s = (.ok a, t) ∧ c.leads t last :=
  ⟨h.along, fun s a t hs ha hl => ⟨h.holds s a t hs ha hl, s, t, hs, ha, hl⟩⟩

theorem pure {a : α} (h : p a) : Ensures c first last (Pure.pure a) p := by
  refine ⟨along_pure a, fun s b t _ hb _ => ?_⟩
  cases hb
  exact h

/-- The part that follows may count on what the first part gives. -/
theorem bind {r : Run α} {next : α → Run β} {q : β → Prop} (hr : Ensures c first last r p)
    (hn : ∀ a, Ensures c first last (next a) fun b => p a → q b) :
    Ensures c first last (r >>= next) q := by
  refine ⟨along_bind hr.along fun a => (hn a).along, fun s b t hs hb hl => ?_⟩
  obtain ⟨a, u, ha, hb⟩ := of_start_bind_ok hb
  have hu : c.leads s u := by
    have h := hr.along s
    rwa [ha] at h
  have ht : c.leads u t := by
    have h := (hn a).along u
    rwa [hb] at h
  exact (hn a).holds u b t (c.trans hs hu) hb hl (hr.holds s a u hs ha (c.trans ht hl))

theorem mapM {f : α → Run β} {q : β → Prop} (xs : List α) (h : ∀ x ∈ xs, Ensures c first last (f x) q) :
    Ensures c first last (xs.mapM f) fun ys => ∀ y ∈ ys, q y := by
  induction xs with
  | nil => exact pure (by simp)
  | cons x xs ih =>
    rw [List.mapM_cons]
    refine (h x List.mem_cons_self).bind fun y => ?_
    refine (ih fun z hz => h z (List.mem_cons_of_mem _ hz)).bind fun ys => pure fun hys hy => ?_
    exact List.forall_mem_cons.2 ⟨hy, hys⟩

/-- A loop keeps what each of its steps keeps. -/
theorem foldlM {f : β → α → Run β} {q : β → Prop} (xs : List α) (b : β)
    (h : ∀ b, ∀ x ∈ xs, Ensures c first last (f b x) fun d => q b → q d) :
    Ensures c first last (xs.foldlM f b) fun d => q b → q d := by
  induction xs generalizing b with
  | nil => exact pure id
  | cons x xs ih =>
    rw [List.foldlM_cons]
    refine (h b x List.mem_cons_self).bind fun d => ?_
    exact (ih d fun e y hy => h e y (List.mem_cons_of_mem _ hy)).mono fun e he hd hb => he (hd hb)

end Ensures

end Run

end PipelineTemplate
