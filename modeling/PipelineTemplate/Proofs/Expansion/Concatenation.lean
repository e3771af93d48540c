import PipelineTemplate.Proofs.Entries.Update
import PipelineTemplate.Proofs.Expansion.Step

/-!
# Expansion in parts

A sequence or a mapping may be expanded in two parts, one after the other, unless the cut goes through a
run of branches. The items of the parts are put one after the other, and the entries of the first part are
updated by those of the second one.
-/

namespace PipelineTemplate.Expansion

/-- The branch that a directive is. -/
def branch? : Option Directive → Option Directive
  | some (.ifTrue condition) => some (.ifTrue condition)
  | some (.elseIf condition) => some (.elseIf condition)
  | some .otherwise => some .otherwise
  | _ => none

/-- The branch that an item of a sequence is. -/
def itemBranch? (item : Value) : Option Directive := branch? ((directiveItem? item).map Prod.fst)

/-- The branch that an entry of a mapping is. -/
def entryBranch? (entry : Value × Value) : Option Directive := branch? (Directive.ofKey? entry.1)

/-- Whether a cut goes through a run of branches: the last part before it is a condition, after which the
run goes on, and the first part after it is a branch. -/
def CutsRun {α : Type} (branchOf? : α → Option Directive) (xs ys : List α) : Prop :=
  ∃ x d y e, xs.getLast? = some x ∧ branchOf? x = some d ∧ d ≠ .otherwise ∧
    ys.head? = some y ∧ branchOf? y = some e

/-- Whether a run of branches that has been going on before goes on. -/
def GoesOn {α : Type} (branchOf? : α → Option Directive) (ys : List α) : Prop :=
  ∃ y e, ys.head? = some y ∧ branchOf? y = some e

theorem branch?_of_branch {d : Directive} (h : Branch d) : branch? (some d) = some d := by
  obtain rfl | ⟨c, rfl | rfl⟩ := h <;> rfl

theorem CutsRun.cons {α : Type} {branchOf? : α → Option Directive} {x : α} {xs ys : List α}
    (h : CutsRun branchOf? xs ys) : CutsRun branchOf? (x :: xs) ys := by
  obtain ⟨last, d, y, e, hl, hd, ho, hy, he⟩ := h
  refine ⟨last, d, y, e, ?_, hd, ho, hy, he⟩
  rw [List.getLast?_cons, hl]
  rfl

/-- What follows the first part after a cut does not matter. -/
theorem CutsRun.of_append {α : Type} {branchOf? : α → Option Directive} {xs ys zs : List α}
    (hn : ys ≠ []) (h : CutsRun branchOf? xs (ys ++ zs)) : CutsRun branchOf? xs ys := by
  obtain ⟨x, d, y, e, hx, hd, ho, hy, he⟩ := h
  rw [List.head?_append_of_ne_nil _ hn] at hy
  exact ⟨x, d, y, e, hx, hd, ho, hy, he⟩

theorem cutsRun_single {α : Type} {branchOf? : α → Option Directive} {x : α} {ys : List α}
    {d : Directive} (hd : branchOf? x = some d) (ho : d ≠ .otherwise) (h : GoesOn branchOf? ys) :
    CutsRun branchOf? [x] ys := by
  obtain ⟨y, e, hy, he⟩ := h
  exact ⟨x, d, y, e, rfl, hd, ho, hy, he⟩

section Items

variable {engine : Engine} {keep : Keeper} {mode : Mode} {ctx : Context}

/-- An item that is a directive is no reference. -/
theorem reference?_of_directiveItem? {item : Value} {d : Directive} {body : Value}
    (h : directiveItem? item = some (d, body)) : item.reference? = none := by
  have noTemplate {key : Value} (hk : Directive.ofKey? key = some d) :
      key.equal (.text "template") = false := by
    rw [Bool.eq_false_iff]
    intro he
    cases key <;> simp only [Value.equal, Bool.false_eq_true, beq_iff_eq] at he
    subst he
    have : Directive.ofKey? (.text "template") = none := by decide
    rw [this] at hk
    cases hk
  unfold directiveItem? at h
  split at h
  · obtain ⟨_, hk, h⟩ := Option.map_eq_some_iff.1 h
    cases h
    simp [Value.reference?, Entries.get?, noTemplate hk]
  · obtain ⟨_, hk, h⟩ := Option.map_eq_some_iff.1 h
    cases h
    simp [Value.reference?, Entries.get?, noTemplate hk]
  · cases h

/-- Whether a branch was taken before only matters to a run that goes on. -/
theorem expandItems_taken {ys : List Value} (h : ¬ GoesOn itemBranch? ys) :
    expandItems engine keep mode ctx true ys = expandItems engine keep mode ctx false ys := by
  cases ys with
  | nil => rw [expandItems_nil, expandItems_nil]
  | cons item rest =>
    cases hr : item.reference? with
    | some r => rw [expandItems_reference hr, expandItems_reference hr]
    | none =>
      cases hd : directiveItem? item with
      | none =>
        rw [expandItems_plain hr (by simp [hd]), expandItems_plain hr (by simp [hd])]
      | some found =>
        obtain ⟨d, body⟩ := found
        have hn : ¬ Branch d := by
          intro hb
          refine h ⟨item, d, rfl, ?_⟩
          rw [itemBranch?, hd]
          exact branch?_of_branch hb
        cases d with
        | insert => rw [expandItems_plain hr (by simp [hd]), expandItems_plain hr (by simp [hd])]
        | malformedEach => rw [expandItems_malformed hr hd, expandItems_malformed hr hd]
        | each name collection => rw [expandItems_each hr hd, expandItems_each hr hd]
        | ifTrue c => exact absurd (.inr ⟨c, .inl rfl⟩) hn
        | elseIf c => exact absurd (.inr ⟨c, .inr rfl⟩) hn
        | otherwise => exact absurd (.inl rfl) hn

theorem expandItems_append_of {xs ys : List Value} (taken : Bool) (hc : ¬ CutsRun itemBranch? xs ys)
    (hn : xs = [] → taken = true → ¬ GoesOn itemBranch? ys) :
    expandItems engine keep mode ctx taken (xs ++ ys) = (do
      let here ← expandItems engine keep mode ctx taken xs
      return here ++ (← expandItems engine keep mode ctx false ys)) := by
  induction xs generalizing taken with
  | nil =>
    simp only [List.nil_append, expandItems_nil, pure_bind, bind_pure]
    cases taken with
    | false => rfl
    | true => exact expandItems_taken (hn rfl rfl)
  | cons item rest ih =>
    -- A branch before the cut can be followed by one after it only if the cut goes through their run.
    have further (t : Bool) (ht : t = true → ∃ d, itemBranch? item = some d ∧ d ≠ .otherwise) :
        expandItems engine keep mode ctx t (rest ++ ys) = (do
          let here ← expandItems engine keep mode ctx t rest
          return here ++ (← expandItems engine keep mode ctx false ys)) := by
      refine ih t (fun h => hc h.cons) fun he htrue hg => ?_
      obtain ⟨d, hd, ho⟩ := ht htrue
      subst he
      exact hc (cutsRun_single hd ho hg)
    have fresh := further false (by simp)
    rw [List.cons_append]
    cases hr : item.reference? with
    | some r =>
      rw [expandItems_reference hr, expandItems_reference hr, fresh]
      simp only [bind_assoc, pure_bind, List.append_assoc]
    | none =>
      have plain (hd : ∀ d body, directiveItem? item = some (d, body) → d = .insert) :
          expandItems engine keep mode ctx taken (item :: (rest ++ ys)) = (do
            let here ← expandItems engine keep mode ctx taken (item :: rest)
            return here ++ (← expandItems engine keep mode ctx false ys)) := by
        rw [expandItems_plain hr hd, expandItems_plain hr hd, fresh, bind_assoc]
        refine bind_congr fun v => ?_
        split <;> simp only [bind_assoc, pure_bind, List.append_assoc, List.cons_append]
      have branch (d : Directive) (body : Value) (hb : Branch d)
          (hd : directiveItem? item = some (d, body)) :
          expandItems engine keep mode ctx taken (item :: (rest ++ ys)) = (do
            let here ← expandItems engine keep mode ctx taken (item :: rest)
            return here ++ (← expandItems engine keep mode ctx false ys)) := by
        have after := further (decide (d ≠ .otherwise)) fun h =>
          ⟨d, by rw [itemBranch?, hd]; exact branch?_of_branch hb, of_decide_eq_true h⟩
        cases taken with
        | true => rw [expandItems_skipped hb hr hd, expandItems_skipped hb hr hd, after]
        | false =>
          rw [expandItems_choice hb hr hd, expandItems_choice hb hr hd, fresh, after, bind_assoc]
          refine bind_congr fun held => ?_
          cases held with
          | false => rfl
          | true => simp only [if_true, bind_assoc, pure_bind, List.append_assoc]
      cases hd : directiveItem? item with
      | none => exact plain (by simp [hd])
      | some found =>
        obtain ⟨d, body⟩ := found
        cases d with
        | insert => exact plain (by simp [hd])
        | ifTrue c => exact branch _ body (.inr ⟨c, .inl rfl⟩) hd
        | elseIf c => exact branch _ body (.inr ⟨c, .inr rfl⟩) hd
        | otherwise => exact branch _ body (.inl rfl) hd
        | malformedEach =>
          rw [expandItems_malformed hr hd, expandItems_malformed hr hd, fresh]
          simp only [bind_assoc]
        | each name collection =>
          rw [expandItems_each hr hd, expandItems_each hr hd, fresh]
          simp only [bind_assoc, pure_bind, List.append_assoc]

end Items

section Pairs

variable {engine : Engine} {keep : Keeper} {mode : Mode} {ctx : Context}

theorem expandEntries_taken {qs : Entries} (h : ¬ GoesOn entryBranch? qs) (before : Entries) :
    expandEntries engine keep mode ctx true before qs =
      expandEntries engine keep mode ctx false before qs := by
  match qs with
  | [] => rw [expandEntries_nil, expandEntries_nil]
  | (key, value) :: rest =>
    cases hd : Directive.ofKey? key with
    | none => rw [expandEntries_plain hd, expandEntries_plain hd]
    | some d =>
      have hn : ¬ Branch d := by
        intro hb
        refine h ⟨(key, value), d, rfl, ?_⟩
        rw [entryBranch?, hd]
        exact branch?_of_branch hb
      cases d with
      | insert => rw [expandEntries_insert hd, expandEntries_insert hd]
      | malformedEach => rw [expandEntries_malformed hd, expandEntries_malformed hd]
      | each name collection => rw [expandEntries_each hd, expandEntries_each hd]
      | ifTrue c => exact absurd (.inr ⟨c, .inl rfl⟩) hn
      | elseIf c => exact absurd (.inr ⟨c, .inr rfl⟩) hn
      | otherwise => exact absurd (.inl rfl) hn

/-- The entries of a mapping update those before it. -/
theorem expandEntries_before (taken : Bool) (before pairs : Entries) :
    expandEntries engine keep mode ctx taken before pairs = (do
      let entries ← expandEntries engine keep mode ctx taken [] pairs
      return before.update entries) := by
  induction pairs generalizing taken before with
  | nil =>
    rw [expandEntries_nil, expandEntries_nil]
    rfl
  | cons entry rest ih =>
    obtain ⟨key, value⟩ := entry
    have further (t : Bool) (xs : Entries) :
        expandEntries engine keep mode ctx t (before.update xs) rest = (do
          let entries ← expandEntries engine keep mode ctx t (Entries.update [] xs) rest
          return before.update entries) := by
      rw [ih t (before.update xs), ih t (Entries.update [] xs), bind_assoc]
      refine bind_congr fun ys => ?_
      rw [pure_bind, Entries.update_update, Entries.update_update, Entries.update_nil]
    have same (t : Bool) : expandEntries engine keep mode ctx t before rest = (do
        let entries ← expandEntries engine keep mode ctx t [] rest
        return before.update entries) := further t []
    have branch (d : Directive) (hb : Branch d) (hd : Directive.ofKey? key = some d) :
        expandEntries engine keep mode ctx taken before ((key, value) :: rest) = (do
          let entries ← expandEntries engine keep mode ctx taken [] ((key, value) :: rest)
          return before.update entries) := by
      cases taken with
      | true => rw [expandEntries_skipped hb hd, expandEntries_skipped hb hd, same]
      | false =>
        rw [expandEntries_choice hb hd, expandEntries_choice hb hd, bind_assoc]
        refine bind_congr fun held => ?_
        cases held with
        | false => exact same false
        | true => simp only [if_true, bind_assoc, further]
    cases hd : Directive.ofKey? key with
    | none =>
      rw [expandEntries_plain hd, expandEntries_plain hd, bind_assoc]
      refine bind_congr fun v => ?_
      split
      · exact same false
      · rw [bind_assoc]
        exact bind_congr fun key => further false [(key, v)]
    | some d =>
      cases d with
      | ifTrue c => exact branch _ (.inr ⟨c, .inl rfl⟩) hd
      | elseIf c => exact branch _ (.inr ⟨c, .inr rfl⟩) hd
      | otherwise => exact branch _ (.inl rfl) hd
      | malformedEach =>
        rw [expandEntries_malformed hd, expandEntries_malformed hd, bind_assoc]
        exact bind_congr fun _ => same false
      | insert =>
        rw [expandEntries_insert hd, expandEntries_insert hd, bind_assoc]
        exact bind_congr fun inserted => further false _
      | each name collection =>
        rw [expandEntries_each hd, expandEntries_each hd]
        simp only [bind_assoc, further]

theorem expandEntries_append_of {ps qs : Entries} (taken : Bool) (before : Entries)
    (hc : ¬ CutsRun entryBranch? ps qs) (hn : ps = [] → taken = true → ¬ GoesOn entryBranch? qs) :
    expandEntries engine keep mode ctx taken before (ps ++ qs) = (do
      let first ← expandEntries engine keep mode ctx taken before ps
      expandEntries engine keep mode ctx false first qs) := by
  induction ps generalizing taken before with
  | nil =>
    rw [List.nil_append, expandEntries_nil, pure_bind]
    cases taken with
    | false => rfl
    | true => exact expandEntries_taken (hn rfl rfl) before
  | cons entry rest ih =>
    obtain ⟨key, value⟩ := entry
    have further (t : Bool) (ht : t = true → ∃ d, entryBranch? (key, value) = some d ∧ d ≠ .otherwise)
        (before : Entries) :
        expandEntries engine keep mode ctx t before (rest ++ qs) = (do
          let first ← expandEntries engine keep mode ctx t before rest
          expandEntries engine keep mode ctx false first qs) := by
      refine ih t before (fun h => hc h.cons) fun he htrue hg => ?_
      obtain ⟨d, hd, ho⟩ := ht htrue
      subst he
      exact hc (cutsRun_single hd ho hg)
    have fresh := further false (by simp)
    have branch (d : Directive) (hb : Branch d) (hd : Directive.ofKey? key = some d) :
        expandEntries engine keep mode ctx taken before ((key, value) :: (rest ++ qs)) = (do
          let first ← expandEntries engine keep mode ctx taken before ((key, value) :: rest)
          expandEntries engine keep mode ctx false first qs) := by
      have after := further (decide (d ≠ .otherwise)) fun h =>
        ⟨d, by rw [entryBranch?, hd]; exact branch?_of_branch hb, of_decide_eq_true h⟩
      cases taken with
      | true => rw [expandEntries_skipped hb hd, expandEntries_skipped hb hd, after]
      | false =>
        rw [expandEntries_choice hb hd, expandEntries_choice hb hd, bind_assoc]
        refine bind_congr fun held => ?_
        cases held with
        | false => exact fresh before
        | true => simp only [if_true, bind_assoc, after]
    rw [List.cons_append]
    cases hd : Directive.ofKey? key with
    | none =>
      rw [expandEntries_plain hd, expandEntries_plain hd, bind_assoc]
      refine bind_congr fun v => ?_
      split
      · exact fresh before
      · simp only [bind_assoc, fresh]
    | some d =>
      cases d with
      | ifTrue c => exact branch _ (.inr ⟨c, .inl rfl⟩) hd
      | elseIf c => exact branch _ (.inr ⟨c, .inr rfl⟩) hd
      | otherwise => exact branch _ (.inl rfl) hd
      | malformedEach =>
        rw [expandEntries_malformed hd, expandEntries_malformed hd, bind_assoc]
        exact bind_congr fun _ => fresh before
      | insert =>
        rw [expandEntries_insert hd, expandEntries_insert hd, bind_assoc]
        exact bind_congr fun inserted => fresh _
      | each name collection =>
        rw [expandEntries_each hd, expandEntries_each hd]
        simp only [bind_assoc, fresh]

end Pairs

/-- Two parts of a sequence between which no run of branches goes on are expanded one after the other, and
the items that they give are put one after the other; likewise two parts of a mapping, where the entries
of the second part update those of the first one. -/
theorem expand_append (engine : Engine) (keep : Keeper) (mode : Mode) (ctx : Context) :
    (∀ xs ys, ¬ CutsRun itemBranch? xs ys →
      expandItems engine keep mode ctx false (xs ++ ys) = (do
        let first ← expandItems engine keep mode ctx false xs
        let second ← expandItems engine keep mode ctx false ys
        return first ++ second)) ∧
    (∀ ps qs, ¬ CutsRun entryBranch? ps qs →
      expandEntries engine keep mode ctx false [] (ps ++ qs) = (do
        let first ← expandEntries engine keep mode ctx false [] ps
        let second ← expandEntries engine keep mode ctx false [] qs
        return first.update second)) := by
  constructor
  · intro xs ys h
    exact expandItems_append_of false h (by simp)
  · intro ps qs h
    rw [expandEntries_append_of false [] h (by simp)]
    refine bind_congr fun first => ?_
    exact expandEntries_before false first qs

/-- A run ends with its last branch, so the sequence may be cut before a new one. -/
theorem expand_append_otherwise :
    let last : Value := .map [(.text "$\x7b\x7b else \x7d\x7d", .text "a")]
    let next : Value := .map [(.text "$\x7b\x7b if true \x7d\x7d", .text "b")]
    ¬ CutsRun itemBranch? [last] [next] ∧
      expandItems {} (keepWithin {} 0) .resolving { directory := "/" } false [last, next] = (do
        let first ← expandItems {} (keepWithin {} 0) .resolving { directory := "/" } false [last]
        let second ← expandItems {} (keepWithin {} 0) .resolving { directory := "/" } false [next]
        return first ++ second) := by
  intro last next
  have h : ¬ CutsRun itemBranch? [last] [next] := by
    rintro ⟨x, d, y, e, hx, hd, ho, -⟩
    have hl : itemBranch? last = some .otherwise := by decide
    obtain rfl : last = x := Option.some.inj hx
    exact ho (Option.some.inj (hl.symm.trans hd)).symm
  exact ⟨h, (expand_append {} (keepWithin {} 0) .resolving { directory := "/" }).1 [last] [next] h⟩

end PipelineTemplate.Expansion
