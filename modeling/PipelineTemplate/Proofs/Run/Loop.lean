import PipelineTemplate.Proofs.Run.Start

/-!
# Loops of runs

A loop takes one step for each element, and each step begins in the session that the step before has
left.
-/

namespace PipelineTemplate.Run

variable {α β γ : Type} {f : α → Run β} {xs : List α} {ys : List β} {s t : Session}

/-- A loop that gives its results has taken its first step, and goes on from there. -/
theorem of_start_mapM_cons {x : α} (h : ((x :: xs).mapM f).start s = (.ok ys, t)) :
    ∃ y u zs, (f x).start s = (.ok y, u) ∧ (xs.mapM f).start u = (.ok zs, t) ∧ ys = y :: zs := by
  rw [List.mapM_cons] at h
  obtain ⟨y, u, hy, h⟩ := of_start_bind_ok h
  obtain ⟨zs, v, hzs, h⟩ := of_start_bind_ok h
  rw [start_pure] at h
  cases h
  exact ⟨y, u, zs, hy, hzs, rfl⟩

/-- A loop fails where one of its steps fails that it comes to. -/
theorem start_mapM_error {before : List α} {x : α} (after : List α) {failure : Failure} {u : Session}
    (h : (before.mapM f).start s = (.ok ys, t)) (hx : (f x).start t = (.error failure, u)) :
    ((before ++ x :: after).mapM f).start s = (.error failure, u) := by
  induction before generalizing s ys with
  | nil =>
    rw [List.mapM_nil, start_pure] at h
    cases h
    rw [List.nil_append, List.mapM_cons]
    exact start_bind_error hx
  | cons z before ih =>
    obtain ⟨y, v, zs, hy, hzs, -⟩ := of_start_mapM_cons h
    rw [List.cons_append, List.mapM_cons, start_bind_ok hy]
    exact start_bind_error (ih hzs)

/-- A property of the elements and the sessions in which their steps begin, for all steps that a loop
comes to. -/
def Throughout (f : α → Run β) (p : α → Session → Prop) : List α → Session → Prop
  | [], _ => True
  | x :: xs, s => p x s ∧ ∀ y t, (f x).start s = (.ok y, t) → Throughout f p xs t

/-- A loop has one result for each element, each with what the steps guarantee. -/
theorem Throughout.results {p : α → Session → Prop} {q : β → Prop} (h : Throughout f p xs s)
    (hq : ∀ x ∈ xs, ∀ s y t, p x s → (f x).start s = (.ok y, t) → q y)
    (hr : (xs.mapM f).start s = (.ok ys, t)) : ys.length = xs.length ∧ ∀ y ∈ ys, q y := by
  induction xs generalizing s ys with
  | nil =>
    rw [List.mapM_nil, start_pure] at hr
    cases hr
    exact ⟨rfl, List.forall_mem_nil _⟩
  | cons x xs ih =>
    obtain ⟨y, u, zs, hy, hzs, rfl⟩ := of_start_mapM_cons hr
    obtain ⟨hlength, hall⟩ := ih (h.2 y u hy) (fun x hx => hq x (List.mem_cons_of_mem _ hx)) hzs
    refine ⟨congrArg (· + 1) hlength, fun z hz => ?_⟩
    rcases List.mem_cons.1 hz with rfl | hz
    · exact hq x List.mem_cons_self s z u h.1 hy
    · exact hall z hz

theorem throughout_of_forall {p : α → Session → Prop} (f : α → Run β) (h : ∀ x ∈ xs, ∀ s, p x s) :
    Throughout f p xs s := by
  induction xs generalizing s with
  | nil => trivial
  | cons x xs ih =>
    exact ⟨h x List.mem_cons_self s, fun _ _ _ => ih fun x hx => h x (List.mem_cons_of_mem _ hx)⟩

/-- What holds of every step's result whatever session the step begins in. -/
theorem results_of_mapM {q : β → Prop} (hq : ∀ x ∈ xs, ∀ s y t, (f x).start s = (.ok y, t) → q y)
    (hr : (xs.mapM f).start s = (.ok ys, t)) : ys.length = xs.length ∧ ∀ y ∈ ys, q y := by
  have hall : Throughout f (fun _ _ => True) xs s := throughout_of_forall f fun _ _ _ => trivial
  exact hall.results (fun x hx s y t _ => hq x hx s y t) hr

/-- What is done to the result of each step may be done to all results in the end. -/
theorem mapM_map (f : α → Run β) (g : β → γ) (xs : List α) :
    (xs.mapM fun x => g <$> f x) = List.map g <$> xs.mapM f := by
  induction xs with
  | nil => simp
  | cons x xs ih => simp [ih]

end PipelineTemplate.Run
