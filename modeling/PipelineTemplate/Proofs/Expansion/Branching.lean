import PipelineTemplate.Proofs.Expansion.Concatenation

/-!
# Runs of branches

Branches that follow each other make up a run, which ends after an alternative to all of them. A run gives
what the body of the first branch gives whose condition holds. The conditions are evaluated in order up to
that of this branch.
-/

namespace PipelineTemplate.Expansion

/-- Branches that belong to one run: an alternative to all others can only be the last. -/
structure IsRun (branches : List (Directive × Value)) : Prop where
  branch : ∀ b ∈ branches, Branch b.1
  closed : ∀ b ∈ branches.dropLast, b.1 ≠ .otherwise

/-- The body of the first branch whose condition holds. -/
def chosenBody (ctx : Context) : List (Directive × Value) → Run (Option Value)
  | [] => return none
  | (d, body) :: rest => do
    if ← holds ctx d then return some body else chosenBody ctx rest

/-- What the body that is chosen gives to a sequence. -/
def chosenItems (engine : Engine) (keep : Keeper) (mode : Mode) (ctx : Context) :
    Option Value → Run (List Value)
  | none => return []
  | some body => takenItems engine keep mode ctx body

/-- What the body that is chosen gives to a mapping. -/
def chosenEntries (engine : Engine) (keep : Keeper) (mode : Mode) (ctx : Context) :
    Option Value → Run Entries
  | none => return []
  | some body => takenEntries engine keep mode ctx body

namespace IsRun

variable {d : Directive} {body : Value} {rest : List (Directive × Value)}

theorem tail (h : IsRun ((d, body) :: rest)) : IsRun rest := by
  refine ⟨fun b hb => h.branch b (List.mem_cons_of_mem _ hb), fun b hb => ?_⟩
  cases rest with
  | nil => cases hb
  | cons next rest => exact h.closed b (List.mem_cons_of_mem _ hb)

/-- Nothing of a run follows an alternative. -/
theorem otherwise_last (h : IsRun ((.otherwise, body) :: rest)) : rest = [] := by
  cases rest with
  | nil => rfl
  | cons next rest => exact absurd rfl (h.closed (.otherwise, body) List.mem_cons_self)

/-- After a branch that was taken the run goes on with the branches that are left, and only with those. -/
theorem goesOn {α : Type} {branchOf? : α → Option Directive} {x : α} {xs ys : List α}
    (h : IsRun ((d, body) :: rest)) (hx : branchOf? x = some d) (hl : xs.length = rest.length)
    (hc : ¬ CutsRun branchOf? (x :: xs) ys) :
    (xs = [] → d ≠ .otherwise → ¬ GoesOn branchOf? ys) ∧ (xs ≠ [] → d ≠ .otherwise) := by
  constructor
  · rintro rfl ho hg
    exact hc (cutsRun_single hx ho hg)
  · rintro hn rfl
    rw [h.otherwise_last] at hl
    exact hn (List.length_eq_zero_iff.1 hl)

end IsRun

section Items

variable {engine : Engine} {keep : Keeper} {mode : Mode} {ctx : Context}
  {run rest : List Value} {branches : List (Directive × Value)}

theorem itemBranch?_of_branch {item body : Value} {d : Directive} (hb : Branch d)
    (h : directiveItem? item = some (d, body)) : itemBranch? item = some d := by
  rw [itemBranch?, h]
  exact branch?_of_branch hb

theorem length_of_map_eq {α β γ : Type} {f : α → γ} {g : β → γ} {xs : List α} {ys : List β}
    (h : xs.map f = ys.map g) : xs.length = ys.length := by
  simpa using congrArg List.length h

/-- The branches of a run after the one that was taken are skipped. -/
theorem expandItems_skip_run (hr : IsRun branches) (hi : run.map directiveItem? = branches.map some)
    (hc : ¬ CutsRun itemBranch? run rest) (taken : Bool)
    (hn : run = [] → taken = true → ¬ GoesOn itemBranch? rest) (ht : run ≠ [] → taken = true) :
    expandItems engine keep mode ctx taken (run ++ rest) =
      expandItems engine keep mode ctx false rest := by
  induction branches generalizing run taken with
  | nil =>
    obtain rfl : run = [] := List.map_eq_nil_iff.1 hi
    cases taken with
    | false => rfl
    | true => exact expandItems_taken (hn rfl rfl)
  | cons b branches ih =>
    obtain ⟨d, body⟩ := b
    obtain ⟨item, run, rfl, hitem, hrun⟩ := List.map_eq_cons_iff.1 hi
    obtain rfl : taken = true := ht (List.cons_ne_nil _ _)
    have hb : Branch d := hr.branch (d, body) List.mem_cons_self
    obtain ⟨last, more⟩ := hr.goesOn (itemBranch?_of_branch hb hitem) (length_of_map_eq hrun) hc
    rw [List.cons_append, expandItems_skipped hb (reference?_of_directiveItem? hitem) hitem]
    apply ih hr.tail hrun fun h => hc h.cons
    · exact fun he ho => last he (of_decide_eq_true ho)
    · exact fun hne => decide_eq_true (more hne)

theorem expandItems_run (hr : IsRun branches) (hi : run.map directiveItem? = branches.map some)
    (hc : ¬ CutsRun itemBranch? run rest) :
    expandItems engine keep mode ctx false (run ++ rest) = (do
      let body ← chosenBody ctx branches
      let here ← chosenItems engine keep mode ctx body
      let last ← expandItems engine keep mode ctx false rest
      return here ++ last) := by
  induction branches generalizing run with
  | nil =>
    obtain rfl : run = [] := List.map_eq_nil_iff.1 hi
    simp [chosenBody, chosenItems]
  | cons b branches ih =>
    obtain ⟨d, body⟩ := b
    obtain ⟨item, run, rfl, hitem, hrun⟩ := List.map_eq_cons_iff.1 hi
    have hb : Branch d := hr.branch (d, body) List.mem_cons_self
    obtain ⟨last, more⟩ := hr.goesOn (itemBranch?_of_branch hb hitem) (length_of_map_eq hrun) hc
    have others : expandItems engine keep mode ctx (decide (d ≠ .otherwise)) (run ++ rest) =
        expandItems engine keep mode ctx false rest := by
      apply expandItems_skip_run hr.tail hrun fun h => hc h.cons
      · exact fun he ho => last he (of_decide_eq_true ho)
      · exact fun hne => decide_eq_true (more hne)
    rw [List.cons_append, expandItems_choice hb (reference?_of_directiveItem? hitem) hitem, others,
      ih hr.tail hrun fun h => hc h.cons, chosenBody, bind_assoc]
    refine bind_congr fun held => ?_
    cases held <;> rfl

end Items

section Pairs

variable {engine : Engine} {keep : Keeper} {mode : Mode} {ctx : Context}
  {run rest : Entries} {branches : List (Directive × Value)}

/-- The entries of a mapping are branches with these directives and bodies. -/
def AreBranches (run : Entries) (branches : List (Directive × Value)) : Prop :=
  run.map (fun entry => (Directive.ofKey? entry.1, entry.2)) = branches.map fun b => (some b.1, b.2)

theorem areBranches_cons {d : Directive} {body : Value} (h : AreBranches run ((d, body) :: branches)) :
    ∃ key run', run = (key, body) :: run' ∧ Directive.ofKey? key = some d ∧
      AreBranches run' branches := by
  obtain ⟨⟨key, value⟩, run', rfl, hentry, hrun⟩ := List.map_eq_cons_iff.1 h
  obtain ⟨hk, rfl⟩ := Prod.mk.inj hentry
  exact ⟨key, run', rfl, hk, hrun⟩

theorem entryBranch?_of_branch {key body : Value} {d : Directive} (hb : Branch d)
    (h : Directive.ofKey? key = some d) : entryBranch? (key, body) = some d := by
  rw [entryBranch?, h]
  exact branch?_of_branch hb

theorem expandEntries_skip_run (hr : IsRun branches) (hi : AreBranches run branches)
    (hc : ¬ CutsRun entryBranch? run rest) (taken : Bool) (before : Entries)
    (hn : run = [] → taken = true → ¬ GoesOn entryBranch? rest) (ht : run ≠ [] → taken = true) :
    expandEntries engine keep mode ctx taken before (run ++ rest) =
      expandEntries engine keep mode ctx false before rest := by
  induction branches generalizing run taken with
  | nil =>
    obtain rfl : run = [] := List.map_eq_nil_iff.1 hi
    cases taken with
    | false => rfl
    | true => exact expandEntries_taken (hn rfl rfl) before
  | cons b branches ih =>
    obtain ⟨d, body⟩ := b
    obtain ⟨key, run, rfl, hkey, hrun⟩ := areBranches_cons hi
    obtain rfl : taken = true := ht (List.cons_ne_nil _ _)
    have hb : Branch d := hr.branch (d, body) List.mem_cons_self
    obtain ⟨last, more⟩ := hr.goesOn (entryBranch?_of_branch hb hkey) (length_of_map_eq hrun) hc
    rw [List.cons_append, expandEntries_skipped hb hkey]
    apply ih hr.tail hrun fun h => hc h.cons
    · exact fun he ho => last he (of_decide_eq_true ho)
    · exact fun hne => decide_eq_true (more hne)

theorem expandEntries_run (hr : IsRun branches) (hi : AreBranches run branches)
    (hc : ¬ CutsRun entryBranch? run rest) (before : Entries) :
    expandEntries engine keep mode ctx false before (run ++ rest) = (do
      let body ← chosenBody ctx branches
      let here ← chosenEntries engine keep mode ctx body
      expandEntries engine keep mode ctx false (before.update here) rest) := by
  induction branches generalizing run with
  | nil =>
    obtain rfl : run = [] := List.map_eq_nil_iff.1 hi
    simp [chosenBody, chosenEntries]
  | cons b branches ih =>
    obtain ⟨d, body⟩ := b
    obtain ⟨key, run, rfl, hkey, hrun⟩ := areBranches_cons hi
    have hb : Branch d := hr.branch (d, body) List.mem_cons_self
    obtain ⟨last, more⟩ := hr.goesOn (entryBranch?_of_branch hb hkey) (length_of_map_eq hrun) hc
    have others (before : Entries) :
        expandEntries engine keep mode ctx (decide (d ≠ .otherwise)) before (run ++ rest) =
          expandEntries engine keep mode ctx false before rest := by
      apply expandEntries_skip_run hr.tail hrun fun h => hc h.cons
      · exact fun he ho => last he (of_decide_eq_true ho)
      · exact fun hne => decide_eq_true (more hne)
    rw [List.cons_append, expandEntries_choice hb hkey, ih hr.tail hrun fun h => hc h.cons, chosenBody,
      bind_assoc]
    simp only [others]
    refine bind_congr fun held => ?_
    cases held <;> rfl

end Pairs

end PipelineTemplate.Expansion
