import Mathlib.Algebra.BigOperators.Group.List.Basic
import PipelineTemplate.Proofs.Entries
import PipelineTemplate.Proofs.Expansion.Concatenation
import PipelineTemplate.Proofs.Run.Loop

/-!
# Loops in sequences

A loop evaluates its collection once and gives what its body gives for one element after the other, in
contexts of their own. What stands next to the loop is expanded in the context around it. If every item of
the body contributes one item, the number of items is the product of the sizes, also of loops in loops.
-/

namespace PipelineTemplate.Expansion

/-! ## Rows of equal length -/

section Rows

variable {α : Type} {rows : List (List α)} {k : Nat} (h : ∀ row ∈ rows, row.length = k)
include h

theorem length_flatten_rows : rows.flatten.length = rows.length * k := by
  rw [List.length_flatten, List.map_congr_left h, List.map_const', List.sum_replicate_nat]

theorem getElem?_flatten_rows (i : Nat) {j : Nat} (hj : j < k) :
    rows.flatten[i * k + j]? = rows[i]?.bind (·[j]?) := by
  induction rows generalizing i with
  | nil => simp
  | cons row rows ih =>
    have hrow : row.length = k := h row List.mem_cons_self
    rw [List.flatten_cons]
    cases i with
    | zero =>
      rw [List.getElem?_append_left (by omega)]
      simp
    | succ i =>
      have hindex : (i + 1) * k + j - row.length = i * k + j := by
        rw [hrow, Nat.succ_mul]
        omega
      rw [List.getElem?_append_right (by rw [hrow, Nat.succ_mul]; omega), hindex,
        ih fun row hr => h row (List.mem_cons_of_mem _ hr)]
      rfl

end Rows

/-- Where all contributions of all rows are single items, these stand one row after the other. -/
theorem getElem?_single_items {α : Type} {rows : List (List (List α))} {k : Nat}
    (hk : ∀ row ∈ rows, row.length = k) (hone : ∀ row ∈ rows, ∀ c ∈ row, c.length = 1) {i j : Nat}
    {row : List (List α)} {c : List α} (hi : rows[i]? = some row) (hj : row[j]? = some c) :
    ∃ item, c = [item] ∧ rows.flatten.flatten[i * k + j]? = some item := by
  have hrow := List.mem_of_getElem? hi
  obtain ⟨item, rfl⟩ := List.length_eq_one_iff.1 (hone row hrow c (List.mem_of_getElem? hj))
  have hlt : j < k := by
    obtain ⟨hlt, -⟩ := List.getElem?_eq_some_iff.1 hj
    rwa [hk row hrow] at hlt
  have hall : ∀ c ∈ rows.flatten, c.length = 1 := by
    intro c hc
    obtain ⟨row, hr, hc⟩ := List.mem_flatten.1 hc
    exact hone row hr c hc
  have hat := getElem?_flatten_rows hall (i * k + j) Nat.zero_lt_one
  rw [Nat.mul_one, Nat.add_zero, getElem?_flatten_rows hk i hlt, hi, Option.bind_some, hj] at hat
  exact ⟨item, rfl, hat⟩

/-! ## One loop -/

/-- A loop in a sequence whose body is a list. -/
structure Loop where
  item : Value
  name : String
  collection : String
  body : Value
  items : List Value
  isEach : directiveItem? item = some (.each name collection, body)
  isList : body.items? = some items

section Loops

variable (engine : Engine) (keep : Keeper) (mode : Mode) (ctx : Context)

/-- What each item of a sequence gives by itself, one after the other. -/
def contributions (items : List Value) : Run (List (List Value)) :=
  items.mapM fun item => expandItems engine keep mode ctx false [item]

/-- What the body of a loop gives for an element. -/
def Loop.pass (loop : Loop) (element : Value × Nat) : Run (List Value) := do
  Run.pass (.entered (iteration ctx loop.name element))
  expandItems engine keep mode (iteration ctx loop.name element) false loop.items

/-- What each item in the body of a loop gives for an element. -/
def Loop.row (loop : Loop) (element : Value × Nat) : Run (List (List Value)) := do
  Run.pass (.entered (iteration ctx loop.name element))
  contributions engine keep mode (iteration ctx loop.name element) loop.items

end Loops

section

variable {engine : Engine} {keep : Keeper} {mode : Mode} {ctx : Context}

theorem itemBranch?_each {item body : Value} {name collection : String}
    (h : directiveItem? item = some (.each name collection, body)) : itemBranch? item = none := by
  rw [itemBranch?, h]
  rfl

theorem not_cutsRun {xs ys : List Value} (h : ∀ y, ys.head? = some y → itemBranch? y = none) :
    ¬ CutsRun itemBranch? xs ys := by
  rintro ⟨-, -, y, e, -, -, -, hy, he⟩
  rw [h y hy] at he
  cases he

/-- A sequence without branches gives what its items give. -/
theorem expandItems_contributions {items : List Value} (h : ∀ item ∈ items, itemBranch? item = none) :
    expandItems engine keep mode ctx false items =
      List.flatten <$> contributions engine keep mode ctx items := by
  induction items with
  | nil => simp [contributions, expandItems_nil]
  | cons item rest ih =>
    have hcut : ¬ CutsRun itemBranch? [item] rest := by
      refine not_cutsRun fun y hy => h y (List.mem_cons_of_mem _ (List.mem_of_head? hy))
    rw [← List.singleton_append, expandItems_append_of false hcut (by simp),
      ih fun item hi => h item (List.mem_cons_of_mem _ hi)]
    simp [contributions]

namespace Loop

variable (loop : Loop)

/-- A loop evaluates its collection and goes through its elements. -/
theorem expand (taken : Bool) : expandItems engine keep mode ctx taken [loop.item] = (do
    let v ← ctx.evaluateText loop.collection
    let parts ← v.elements.zipIdx.mapM (loop.pass engine keep mode ctx)
    return parts.flatten) := by
  rw [expandItems_each (reference?_of_directiveItem? loop.isEach) loop.isEach, loopElements]
  simp only [branchItems_items loop.isList, expandItems_nil, bind_assoc, pure_bind, List.append_nil]
  rfl

/-- What stands before a loop and after it is expanded in the context around it. -/
theorem expand_siblings (taken : Bool) (xs ys : List Value) :
    expandItems engine keep mode ctx taken (xs ++ loop.item :: ys) = (do
      let before ← expandItems engine keep mode ctx taken xs
      let here ← expandItems engine keep mode ctx false [loop.item]
      let after ← expandItems engine keep mode ctx false ys
      return before ++ (here ++ after)) := by
  have hbranch := itemBranch?_each loop.isEach
  have hgoes : ¬ GoesOn itemBranch? (loop.item :: ys) := by
    rintro ⟨y, e, hy, he⟩
    obtain rfl : loop.item = y := Option.some.inj hy
    rw [hbranch] at he
    cases he
  have hbefore : ¬ CutsRun itemBranch? xs (loop.item :: ys) := by
    refine not_cutsRun fun y hy => ?_
    obtain rfl : loop.item = y := Option.some.inj hy
    exact hbranch
  have hafter : ¬ CutsRun itemBranch? [loop.item] ys := by
    rintro ⟨x, d, -, -, hx, hd, -⟩
    obtain rfl : loop.item = x := Option.some.inj hx
    rw [hbranch] at hd
    cases hd
  rw [expandItems_append_of taken hbefore fun _ _ => hgoes, ← List.singleton_append,
    expandItems_append_of false hafter (by simp)]
  simp only [bind_assoc, pure_bind]

theorem pass_eq_row (h : ∀ item ∈ loop.items, itemBranch? item = none) (element : Value × Nat) :
    loop.pass engine keep mode ctx element = List.flatten <$> loop.row engine keep mode ctx element := by
  rw [pass, row, expandItems_contributions h, map_bind]

/-- The items of a loop without branches are those of its rows, which have one contribution for each item
of the body. -/
theorem start_expand {taken : Bool} {s t : Session} {result : List Value}
    (h : ∀ item ∈ loop.items, itemBranch? item = none)
    (hr : (expandItems engine keep mode ctx taken [loop.item]).start s = (.ok result, t)) :
    ∃ v u rows, (ctx.evaluateText loop.collection).start s = (.ok v, u) ∧
      (v.elements.zipIdx.mapM (loop.row engine keep mode ctx)).start u = (.ok rows, t) ∧
      result = rows.flatten.flatten ∧ rows.length = v.elements.length ∧
      ∀ row ∈ rows, row.length = loop.items.length := by
  rw [expand] at hr
  obtain ⟨v, u, hv, hr⟩ := Run.of_start_bind_ok hr
  obtain ⟨parts, w, hparts, hr⟩ := Run.of_start_bind_ok hr
  rw [Run.start_pure] at hr
  cases hr
  rw [funext (loop.pass_eq_row h), Run.mapM_map, map_eq_pure_bind] at hparts
  obtain ⟨rows, x, hrows, hparts⟩ := Run.of_start_bind_ok hparts
  rw [Run.start_pure] at hparts
  cases hparts
  have hrow : ∀ element ∈ v.elements.zipIdx, ∀ s row t,
      (loop.row engine keep mode ctx element).start s = (.ok row, t) → row.length = loop.items.length := by
    intro element _ s row t hrow
    obtain ⟨-, w, -, hrow⟩ := Run.of_start_bind_ok hrow
    exact (Run.results_of_mapM (q := fun _ => True) (fun _ _ _ _ _ _ => trivial) hrow).1
  obtain ⟨hlength, hall⟩ := Run.results_of_mapM hrow hrows
  exact ⟨v, u, rows, hv, hrows, List.flatten_flatten.symm, by rw [hlength, List.length_zipIdx], hall⟩

/-- In an iteration the element and its position have names; all other names are as they are around the
loop. -/
theorem get?_iteration (ctx : Context) (name : String) (element : Value × Nat) (n : String) :
    (iteration ctx name element).locals.get? (.text n) =
      if indexName name = n then some (.int element.2)
      else if name = n then some element.1
      else ctx.locals.get? (.text n) := by
  have htext (m : String) : (Value.text m).equal (.text n) = decide (m = n) := by
    rw [Bool.eq_iff_iff, decide_eq_true_iff, Value.equal_text, Value.text.injEq]
  rw [iteration, Context.child, Entries.get?_update, Entries.get?_cons, Entries.get?_cons, htext, htext]
  by_cases hindex : indexName name = n
  · simp [hindex, Entries.get?]
  · by_cases hname : name = n
    · subst hname
      simp [hindex, Entries.get?]
    · simp [hindex, hname, Entries.get?]

/-- The name of a loop hides a local name or a parameter of the same name. -/
theorem resolveName_iteration {name : String} (h : constant? name = none) (ctx : Context)
    (element : Value × Nat) : (iteration ctx name element).resolveName name = element.1 := by
  have hindex : indexName name ≠ name := by
    intro he
    have hlength := congrArg String.length he
    rw [indexName, String.length_append] at hlength
    exact absurd hlength (by simp)
  rw [Context.resolveName, h, get?_iteration, if_neg hindex, if_pos rfl]
  rfl

end Loop

end

/-! ## Loops in loops -/

/-- Items, or a loop with a nest as its body. -/
inductive Nest : List Value → Type where
  | body (items : List Value) : Nest items
  | around (loop : Loop) (inner : Nest loop.items) : Nest [loop.item]

namespace Nest

/-- The items inside all loops. -/
def core {items : List Value} : Nest items → List Value
  | .body items => items
  | .around _ inner => inner.core

variable (engine : Engine) (keep : Keeper) (mode : Mode)

/-- Whether the loops of a nest have these sizes wherever an expansion comes to them, and each item inside
them contributes one item. -/
def Uniform {items : List Value} : Nest items → List Nat → Context → Session → Prop
  | .body items, sizes, ctx, s => sizes = [] ∧
    Run.Throughout (fun item => expandItems engine keep mode ctx false [item])
      (fun item s => ∀ part t, (expandItems engine keep mode ctx false [item]).start s = (.ok part, t) →
        part.length = 1) items s
  | .around _ _, [], _, _ => False
  | .around loop inner, n :: sizes, ctx, s =>
    ∀ v t, (ctx.evaluateText loop.collection).start s = (.ok v, t) → v.elements.length = n ∧
      Run.Throughout (loop.pass engine keep mode ctx)
        (fun element s => inner.Uniform sizes (iteration ctx loop.name element)
          { s with trail := .entered (iteration ctx loop.name element) :: s.trail })
        v.elements.zipIdx t

variable {engine keep mode}

/-- A nest gives as many items as the product of its sizes. -/
theorem length_expand {items : List Value} (nest : Nest items)
    (h : ∀ item ∈ nest.core, itemBranch? item = none) {sizes : List Nat} {ctx : Context} {s t : Session}
    {result : List Value} (hu : nest.Uniform engine keep mode sizes ctx s)
    (hr : (expandItems engine keep mode ctx false items).start s = (.ok result, t)) :
    result.length = sizes.prod * nest.core.length := by
  induction nest generalizing sizes ctx s t result with
  | body items =>
    obtain ⟨rfl, hone⟩ := hu
    have hitems := @expandItems_contributions engine keep mode ctx items h
    rw [hitems, map_eq_pure_bind] at hr
    obtain ⟨parts, u, hparts, hr⟩ := Run.of_start_bind_ok hr
    rw [Run.start_pure] at hr
    cases hr
    obtain ⟨hlength, hall⟩ := hone.results (fun _ _ _ part t hp hr => hp part t hr) hparts
    rw [length_flatten_rows hall, hlength]
    simp [core]
  | around loop inner ih =>
    cases sizes with
    | nil => exact hu.elim
    | cons n sizes =>
      rw [loop.expand] at hr
      obtain ⟨v, u, hv, hr⟩ := Run.of_start_bind_ok hr
      obtain ⟨parts, w, hparts, hr⟩ := Run.of_start_bind_ok hr
      rw [Run.start_pure] at hr
      cases hr
      obtain ⟨hn, huniform⟩ := hu v u hv
      have hpass : ∀ element ∈ v.elements.zipIdx, ∀ s part t,
          inner.Uniform engine keep mode sizes (iteration ctx loop.name element)
            { s with trail := .entered (iteration ctx loop.name element) :: s.trail } →
          (loop.pass engine keep mode ctx element).start s = (.ok part, t) →
          part.length = sizes.prod * inner.core.length := by
        intro element _ s part t hp hpart
        obtain ⟨_, w, hw, hpart⟩ := Run.of_start_bind_ok hpart
        rw [Run.start_pass] at hw
        cases hw
        exact ih h hp hpart
      obtain ⟨hlength, hall⟩ := huniform.results hpass hparts
      rw [length_flatten_rows hall, hlength, List.length_zipIdx, hn, List.prod_cons, Nat.mul_assoc]
      rfl

end Nest

/-- What a loop in a sequence gives. It evaluates its collection once, in the context around it, and puts
together what its body gives for the elements in order, each in a context where the element and its position
have names; state goes from each to the next. The parts of the sequence around the loop are expanded in the
context around it. If no item of the body is a branch, the result consists of rows of contributions, and if
these are single items, the item `j` of the row `i` is at `i * k + j`; loops in loops multiply the sizes. -/
theorem Loop.repetition (engine : Engine) (keep : Keeper) (mode : Mode) (ctx : Context) (loop : Loop) :
    (∀ taken, expandItems engine keep mode ctx taken [loop.item] = (do
      let v ← ctx.evaluateText loop.collection
      let parts ← v.elements.zipIdx.mapM fun element => do
        Run.pass (.entered (iteration ctx loop.name element))
        expandItems engine keep mode (iteration ctx loop.name element) false loop.items
      return parts.flatten)) ∧
    (∀ v : Value, (∀ items, v.items? = some items → v.elements = items) ∧
      (∀ entries, v.entries? = some entries →
        v.elements = entries.map fun entry => .map [(.text "key", entry.1), (.text "value", entry.2)]) ∧
      (v.items? = none → v.entries? = none → v.elements = [])) ∧
    (∀ element, { iteration ctx loop.name element with locals := ctx.locals } = ctx ∧
      (∀ n, (iteration ctx loop.name element).locals.get? (.text n) =
        if indexName loop.name = n then some (.int element.2)
        else if loop.name = n then some element.1
        else ctx.locals.get? (.text n)) ∧
      (constant? loop.name = none → (iteration ctx loop.name element).resolveName loop.name = element.1)) ∧
    (∀ taken xs ys, expandItems engine keep mode ctx taken (xs ++ loop.item :: ys) = (do
      let before ← expandItems engine keep mode ctx taken xs
      let here ← expandItems engine keep mode ctx false [loop.item]
      let after ← expandItems engine keep mode ctx false ys
      return before ++ (here ++ after))) ∧
    ((∀ item ∈ loop.items, itemBranch? item = none) → ∀ s t result,
      (expandItems engine keep mode ctx false [loop.item]).start s = (.ok result, t) →
      ∃ v u rows, (ctx.evaluateText loop.collection).start s = (.ok v, u) ∧
        (v.elements.zipIdx.mapM (loop.row engine keep mode ctx)).start u = (.ok rows, t) ∧
        result = rows.flatten.flatten ∧ rows.length = v.elements.length ∧
        (∀ row ∈ rows, row.length = loop.items.length) ∧
        ((∀ row ∈ rows, ∀ part ∈ row, part.length = 1) →
          result.length = v.elements.length * loop.items.length ∧
          ∀ i j row part, rows[i]? = some row → row[j]? = some part →
            ∃ item, part = [item] ∧ result[i * loop.items.length + j]? = some item)) ∧
    ∀ (nest : Nest [loop.item]) sizes s t result, (∀ item ∈ nest.core, itemBranch? item = none) →
      nest.Uniform engine keep mode sizes ctx s →
      (expandItems engine keep mode ctx false [loop.item]).start s = (.ok result, t) →
      result.length = sizes.prod * nest.core.length := by
  refine ⟨loop.expand, fun v => ⟨fun items hi => ?_, fun entries he => ?_, fun hi he => ?_⟩,
    fun element => ⟨rfl, get?_iteration ctx loop.name element, fun h => resolveName_iteration h ctx element⟩,
    loop.expand_siblings, fun h s t result hr => ?_,
    fun nest sizes s t result h hu hr => nest.length_expand h hu hr⟩
  · rw [Value.elements, hi]
  · have hi : v.items? = none := by
      cases v <;> first | rfl | cases he
    rw [Value.elements, hi, he]
    rfl
  · rw [Value.elements, hi, he]
    rfl
  · obtain ⟨v, u, rows, hv, hrows, hresult, hlength, hk⟩ := loop.start_expand h hr
    refine ⟨v, u, rows, hv, hrows, hresult, hlength, hk, fun hone => ⟨?_, ?_⟩⟩
    · have hall : ∀ part ∈ rows.flatten, part.length = 1 := by
        intro part hp
        obtain ⟨row, hrow, hp⟩ := List.mem_flatten.1 hp
        exact hone row hrow part hp
      rw [hresult, length_flatten_rows hall, length_flatten_rows hk, hlength, Nat.mul_one]
    · intro i j row part hi hj
      rw [hresult]
      exact getElem?_single_items hk hone hi hj

/-- Three elements and two items that stay as they are make six items. -/
theorem Loop.repetition_three :
    let item : Value := .map [(.text "$\x7b\x7b each x in xs \x7d\x7d", .list [.null, .null])]
    let ctx : Context := {
      directory := "/"
      locals := [(.text "xs", .list [.text "a", .text "b", .text "c"]), (.text "x", .text "outer")] }
    ∃ s result t,
      (expandItems {} (keepWithin {} 0) .resolving ctx false [item]).start s = (.ok result, t) ∧
        result.length = 6 := by
  intro item ctx
  have hkey : Directive.ofKey? (.text "$\x7b\x7b each x in xs \x7d\x7d") = some (.each "x" "xs") := by
    decide +kernel
  let loop : Loop := ⟨item, "x", "xs", .list [.null, .null], [.null, .null],
    congrArg (Option.map (·, _)) hkey, rfl⟩
  let nest : Nest [loop.item] := .around loop (.body [.null, .null])
  let s : Session := { expressions := [("xs", some (.name "xs"))] }
  have hnull (c : Context) (rest : List Value) :
      expandItems {} (keepWithin {} 0) .resolving c false (.null :: rest) = (do
        return .null :: (← expandItems {} (keepWithin {} 0) .resolving c false rest)) := by
    rw [expandItems_plain rfl (by simp [directiveItem?]), expandValue_scalar rfl rfl rfl, expandScalar]
    · rfl
    · simp
  have hbody (c : Context) :
      expandItems {} (keepWithin {} 0) .resolving c false [.null, .null] = pure [.null, .null] := by
    rw [hnull, hnull, expandItems_nil]
    rfl
  have hone (c : Context) : expandItems {} (keepWithin {} 0) .resolving c false [.null] = pure [.null] := by
    rw [hnull, expandItems_nil]
    rfl
  have hname : constant? "xs" = none := rfl
  have hvalue : ctx.resolveName "xs" = .list [.text "a", .text "b", .text "c"] := by
    simp [Context.resolveName, hname, ctx, Value.equal, Entries.get?]
  have hstrip : Text.strip "xs" = "xs" := by decide +kernel
  have hcollection :
      (ctx.evaluateText "xs").start s = (.ok (.list [.text "a", .text "b", .text "c"]), s) := by
    unfold Context.evaluateText
    have hread : (Expr.remembered "xs").start s = (.ok (some (.name "xs")), s) := rfl
    simp only [hstrip]
    rw [if_neg (by decide), Run.start_bind_ok hread]
    simp only [Expr.evaluate, hvalue]
    rfl
  have hcore : ∀ item ∈ [Value.null, .null], item = .null := by simp
  have huniform : nest.Uniform {} (keepWithin {} 0) .resolving [3] ctx s := by
    intro v t hv
    rw [hcollection] at hv
    cases hv
    refine ⟨rfl, Run.throughout_of_forall _ fun _ _ _ => ⟨rfl, Run.throughout_of_forall _ ?_⟩⟩
    intro item hi s part t hpart
    rw [hcore item hi, hone, Run.start_pure] at hpart
    cases hpart
    rfl
  have hrun : ∃ result t,
      (expandItems {} (keepWithin {} 0) .resolving ctx false [loop.item]).start s = (.ok result, t) := by
    have hpass : loop.pass {} (keepWithin {} 0) .resolving ctx = fun element => (do
        Run.pass (.entered (iteration ctx loop.name element))
        return [.null, .null]) := funext fun element => by rw [Loop.pass, hbody]
    rw [loop.expand, Run.start_bind_ok hcollection, hpass]
    exact ⟨_, _, rfl⟩
  obtain ⟨result, t, hr⟩ := hrun
  refine ⟨s, result, t, hr, ?_⟩
  have hplain : ∀ item ∈ nest.core, itemBranch? item = none := fun item hi => by rw [hcore item hi]; rfl
  exact (Loop.repetition {} (keepWithin {} 0) .resolving ctx loop).2.2.2.2.2 nest [3] s t result hplain huniform hr

end PipelineTemplate.Expansion
