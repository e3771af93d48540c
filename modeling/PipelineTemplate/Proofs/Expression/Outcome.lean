import PipelineTemplate.Proofs.Expression.Arithmetic
import PipelineTemplate.Proofs.Expression.RoundTrip
import PipelineTemplate.Proofs.Run.Loop
import PipelineTemplate.Proofs.Run.Reuse
import PipelineTemplate.Proofs.Value.Inert

/-!
# Outcomes of evaluations

Where no callable is in reach, no function fails or makes a callable, and the evaluation of an expression
gives a value, unless it comes to an operator with excessive operands; there it fails.
-/

namespace PipelineTemplate

open Number (Numeric)

namespace Run

variable {α β : Type} {r : Run α} {s : Session} {p : α → Prop} {bad : Prop}

/-- From a session a run gives a value with a property, or else it fails in arithmetic for a bad reason. -/
def Succeeds (r : Run α) (s : Session) (p : α → Prop) (bad : Prop) : Prop :=
  (∃ a t, r.start s = (.ok a, t) ∧ p a) ∨ ∃ cause t, r.start s = (.error (.arithmetic cause), t) ∧ bad

namespace Succeeds

theorem pure {a : α} (h : p a) : (Pure.pure a : Run α).Succeeds s p bad := .inl ⟨a, s, rfl, h⟩

theorem mono {q : α → Prop} {worse : Prop} (h : r.Succeeds s p bad) (hp : ∀ a, p a → q a) (hb : bad → worse) :
    r.Succeeds s q worse := by
  obtain ⟨a, t, hs, ha⟩ | ⟨cause, t, hs, hbad⟩ := h
  · exact .inl ⟨a, t, hs, hp a ha⟩
  · exact .inr ⟨cause, t, hs, hb hbad⟩

theorem weaken {worse : Prop} (h : r.Succeeds s p bad) (hb : bad → worse) : r.Succeeds s p worse :=
  h.mono (fun _ => id) hb

theorem bind {next : α → Run β} {q : β → Prop} (h : r.Succeeds s p bad)
    (hn : ∀ a t, r.start s = (.ok a, t) → p a → (next a).Succeeds t q bad) : (r >>= next).Succeeds s q bad := by
  unfold Succeeds
  obtain ⟨a, t, hs, ha⟩ | ⟨cause, t, hs, hbad⟩ := h
  · rw [start_bind_ok hs]
    exact hn a t hs ha
  · exact .inr ⟨cause, t, start_bind_error hs, hbad⟩

/-- The steps of a loop give their results, or some step that the loop comes to fails. -/
theorem mapM {f : α → Run β} {p : β → Prop} {bad : α → Session → Prop} {xs : List α}
    (h : ∀ x ∈ xs, ∀ s, (f x).Succeeds s p (bad x s)) (s : Session) :
    (xs.mapM f).Succeeds s (fun ys => ∀ y ∈ ys, p y) (∃ before x after ys t, xs = before ++ x :: after ∧
      (before.mapM f).start s = (.ok ys, t) ∧ bad x t) := by
  induction xs generalizing s with
  | nil => exact pure (List.forall_mem_nil _)
  | cons x xs ih =>
    obtain ⟨hx, hxs⟩ := List.forall_mem_cons.1 h
    rw [List.mapM_cons]
    refine ((hx s).weaken fun hbad => ⟨[], x, xs, [], s, rfl, rfl, hbad⟩).bind fun y t hy hp => ?_
    refine ((ih hxs t).weaken ?_).bind fun ys u _ hps => pure (List.forall_mem_cons.2 ⟨hp, hps⟩)
    rintro ⟨before, z, after, ys, u, rfl, hys, hbad⟩
    refine ⟨x :: before, z, after, y :: ys, u, rfl, ?_, hbad⟩
    rw [List.mapM_cons, start_bind_ok hy, start_bind_ok hys, start_pure]

end Succeeds

end Run

/-! ## Functions -/

namespace Builtin

variable {arguments : List Value} (h : ∀ v ∈ arguments, v.Inert)

include h in
theorem inert_argument (position : Nat) : (argument arguments position).Inert :=
  .getD fun v hv => h v (List.mem_of_getElem? hv)

include h in
theorem inert_firstFilled : (firstFilled arguments).Inert := by
  fun_induction firstFilled arguments with
  | case1 => exact .undefined
  | case2 rest ih | case3 rest ih | case4 rest ih => exact ih (List.forall_mem_cons.1 h).2
  | case5 v rest => exact (List.forall_mem_cons.1 h).1

theorem inert_onText (f : String → String) {v : Value} (hv : v.Inert) : (onText f v).Inert := by
  cases v with
  | text s => exact .text _
  | _ => exact hv

theorem inert_splitText (s delimiter : String) : ∀ v ∈ splitText s delimiter, v.Inert := by
  unfold splitText
  split <;> exact List.forall_mem_map.2 fun _ _ => .text _

include h in
/-- No function makes a callable. -/
theorem inert_value (f : Builtin) : (f.value arguments).Inert := by
  have first := inert_argument h 0
  have second := inert_argument h 1
  cases f with
  | coalesce => exact inert_firstFilled h
  | lower | upper | trim | replace => exact inert_onText _ first
  | split =>
    unfold value
    generalize argument arguments 0 = v at first
    cases v with
    | text s => exact .list (inert_splitText _ _)
    | _ => exact .list (List.forall_mem_singleton.2 first)
  | join =>
    unfold value
    simp only
    split <;> exact .text _
  | format => cases arguments <;> exact .text _
  | length =>
    unfold value
    simp only
    split
    · exact .number _
    · split <;> exact .number _
  | iif =>
    unfold value
    simp only
    split
    · exact second
    · exact inert_argument h 2
  | convertToJson | counter => exact .undefined
  | _ => exact .bool _

/-- A counter is an integer or a double, and can be increased by one. -/
theorem exists_advance (counters : Counters) (key : String) (start : Numeric) :
    ∃ r, advance counters key start = .ok r := by
  unfold advance
  simp only
  cases hadd : ((counters.lookup key).getD start).add (.int 1) with
  | ok next => exact ⟨_, rfl⟩
  | error cause =>
    obtain ⟨⟨x, hx⟩, ⟨n, hn, -⟩ | hb⟩ := Numeric.combine_fails.1 ⟨cause, hadd⟩
    · rw [hn] at hx
      rcases hx with hx | hx <;> cases hx
    · exact absurd hb Numeric.not_huge_one

include h in
/-- A function gives a value. -/
theorem call_succeeds (f : Builtin) (s : Session) : (f.call arguments).Succeeds s Value.Inert False := by
  cases f with
  | convertToJson =>
    have first := inert_argument h 0
    simp only [call]
    split
    · exact .pure (.text _)
    · obtain ⟨s, hs⟩ := first.toIndentedJson
      simp only [hs]
      exact .pure (.text _)
  | counter =>
    obtain ⟨⟨n, counters⟩, hr⟩ :=
      exists_advance s.counters (argument arguments 0).toText (seed (argument arguments 1))
    simp only [call]
    refine .inl ⟨.number n, { s with counters }, ?_, .number n⟩
    rw [Run.start_bind_ok (Run.start_get s)]
    simp only [hr]
    exact Run.start_bind_ok (Run.start_modify s _)
  | _ => exact .pure (inert_value h _)

include h in
/-- A call of what is no callable is a call by name, and an unknown function gives null. -/
theorem callValue_succeeds (name : String) {v : Value} (hv : v.Inert) (s : Session) :
    (Expr.callValue name v arguments).Succeeds s Value.Inert False := by
  have hcall : Expr.callValue name v arguments = callNamed name arguments := by
    cases v with
    | callable f => exact absurd rfl (hv.notCallable f)
    | _ => rfl
  rw [hcall]
  unfold callNamed
  split
  · exact call_succeeds h _ s
  · exact .pure .null

end Builtin

/-! ## Contexts -/

namespace Context

variable {ctx : Context}

/-- No callable is in reach of a name. -/
def Inert (ctx : Context) : Prop := ∀ name v, ctx.root? name = some v → v.Inert

theorem inert_constant? (name : String) : ∀ v, constant? name = some v → v.Inert := by
  intro v hv
  unfold constant? at hv
  split at hv <;> cases hv
  · exact .bool _
  · exact .bool _
  · exact .null
  · exact .undefined

namespace Inert

variable (h : ctx.Inert)
include h

theorem locals (key : Value) : ∀ v, ctx.locals.get? key = some v → v.Inert :=
  .get? ((h "locals" _ rfl).pairs rfl) key

theorem parameters (key : Value) : ∀ v, ctx.parameters.get? key = some v → v.Inert :=
  .get? ((h "parameters" _ rfl).pairs rfl) key

theorem variableValues (key : Value) : ∀ v, ctx.variableValues.get? key = some v → v.Inert :=
  .get? ((h "variables" _ rfl).pairs rfl) key

theorem resolveName (name : String) : (ctx.resolveName name).Inert :=
  .getD (.or (inert_constant? name) (.or (h.locals _) (.or (h.parameters _) (.or (h.variableValues _) (h name)))))

theorem resolvePath (text : String) : (ctx.resolvePath text).Inert := by
  unfold Context.resolvePath
  split
  · exact .undefined
  · next first rest _ =>
    have hstart := Value.Inert.getD
      (.or (h.locals (.text first)) (.or (h first) (.or (h.parameters (.text first)) (h.variableValues (.text first)))))
    exact List.foldlRecOn rest _ hstart fun v hv segment _ => hv.member _

end Inert

end Context

/-! ## Evaluations -/

namespace Expr

mutual

/-- The values that are written in an expression. -/
def literals : Expr → List Value
  | .literal v => [v]
  | .name _ => []
  | .member target _ => target.literals
  | .index target key => target.literals ++ key.literals
  | .unary _ argument => argument.literals
  | .binary _ left right | .logical _ left right => left.literals ++ right.literals
  | .conditional test yes no => test.literals ++ yes.literals ++ no.literals
  | .array elements => literalsAll elements
  | .object properties => literalsOf properties
  | .call callee arguments => callee.literals ++ literalsAll arguments

def literalsAll : List Expr → List Value
  | [] => []
  | e :: es => e.literals ++ literalsAll es

def literalsOf : List (Value × Expr) → List Value
  | [] => []
  | (_, e) :: rest => e.literals ++ literalsOf rest

end

end Expr

/-- The values that are written in what a phrase of a category prescribes. -/
def Category.literals : {c : Category} → c.Tree → List Value
  | .layer _, e => Expr.literals e
  | .arguments, es | .someArguments, es => Expr.literalsAll es
  | .pairs, properties | .somePairs, properties => Expr.literalsOf properties

/-- Only numbers and texts are written in expressions. -/
theorem Phrase.inert_literals {c : Category} (p : Phrase c) : ∀ v ∈ Category.literals p.tree, v.Inert := by
  induction p with
  | number n => exact List.forall_mem_singleton.2 (.number n)
  | text s => exact List.forall_mem_singleton.2 (.text s)
  | name | noArguments | noPairs => exact List.forall_mem_nil _
  | operation p ih | operand p ih | accessed p ih | unary op p ih | atom p ih | member target s ih | array elements ih
  | object entries ih | group p ih | given p ih | listed p ih => exact ih
  | conditional test yes no htest hyes hno =>
    exact List.forall_mem_append.2 ⟨List.forall_mem_append.2 ⟨htest, hyes⟩, hno⟩
  | join left op h right hleft hright => cases op <;> exact List.forall_mem_append.2 ⟨hleft, hright⟩
  | index left right hleft hright | call left right hleft hright | nextArgument left right hleft hright
  | nextPair key left right hleft hright => exact List.forall_mem_append.2 ⟨hleft, hright⟩
  | lastArgument p ih | lastPair key p ih => exact List.forall_mem_append.2 ⟨ih, List.forall_mem_nil _⟩

theorem Expr.inert_literals {text : String} {e : Expr} (h : Expr.parse text = .ok e) :
    ∀ v ∈ e.literals, v.Inert := by
  obtain ⟨p, -, rfl⟩ := Expr.parse_eq_ok_iff_splits.1 h
  exact p.inert_literals

namespace Expr

/-- The evaluation of an expression in a session comes to that of a part in another session. -/
inductive Needs (ctx : Context) : Expr → Session → Expr → Session → Prop where
  | owner {target : Expr} {name : String} {s : Session} : Needs ctx (.member target name) s target s
  | target {target key : Expr} {s : Session} : Needs ctx (.index target key) s target s
  | key {target key : Expr} {v : Value} {s t : Session} (h : (target.evaluate ctx).start s = (.ok v, t))
      (hv : v.isMissing = false) : Needs ctx (.index target key) s key t
  | operand {op : UnaryOp} {argument : Expr} {s : Session} : Needs ctx (.unary op argument) s argument s
  | left {op : BinaryOp} {left right : Expr} {s : Session} : Needs ctx (.binary op left right) s left s
  | right {op : BinaryOp} {left right : Expr} {a : Value} {s t : Session}
      (h : (left.evaluate ctx).start s = (.ok a, t)) : Needs ctx (.binary op left right) s right t
  | first {op : LogicalOp} {left right : Expr} {s : Session} : Needs ctx (.logical op left right) s left s
  | second {op : LogicalOp} {left right : Expr} {a : Value} {s t : Session}
      (h : (left.evaluate ctx).start s = (.ok a, t)) (ha : op.settles a = false) :
      Needs ctx (.logical op left right) s right t
  | test {test yes no : Expr} {s : Session} : Needs ctx (.conditional test yes no) s test s
  | branch {test yes no : Expr} {v : Value} {s t : Session} (h : (test.evaluate ctx).start s = (.ok v, t)) :
      Needs ctx (.conditional test yes no) s (if v.isTrue then yes else no) t
  | element {before after : List Expr} {e : Expr} {vs : List Value} {s t : Session}
      (h : (evaluateAll ctx before).start s = (.ok vs, t)) : Needs ctx (.array (before ++ e :: after)) s e t
  | property {before after : List (Value × Expr)} {key : Value} {e : Expr} {vs : Entries} {s t : Session}
      (h : (evaluateProperties ctx before).start s = (.ok vs, t)) :
      Needs ctx (.object (before ++ (key, e) :: after)) s e t
  | argument {callee : Expr} {before after : List Expr} {e : Expr} {vs : List Value} {s t : Session}
      (h : (evaluateAll ctx before).start s = (.ok vs, t)) :
      Needs ctx (.call callee (before ++ e :: after)) s e t
  /-- What a call finds by name is not evaluated, but the parts of its member or item are. -/
  | callee {callee : Expr} {arguments : List Expr} {vs : List Value} {s t : Session}
      (h : (evaluateAll ctx arguments).start s = (.ok vs, t)) : Needs ctx (.call callee arguments) s callee t

/-- The evaluation of an expression in a session comes to an operation with excessive operands. -/
inductive Overloads (ctx : Context) : Expr → Session → Prop where
  | operation {op : BinaryOp} {left right : Expr} {a b : Value} {s t u : Session}
      (hl : (left.evaluate ctx).start s = (.ok a, t)) (hr : (right.evaluate ctx).start t = (.ok b, u))
      (h : op.Excessive a b) : Overloads ctx (.binary op left right) s
  | part {e part : Expr} {s t : Session} (h : Needs ctx e s part t) (hpart : Overloads ctx part t) : Overloads ctx e s

variable {ctx : Context}

theorem evaluateAll_eq_mapM (ctx : Context) (es : List Expr) : evaluateAll ctx es = es.mapM (evaluate ctx) := by
  induction es with
  | nil => rw [evaluateAll, List.mapM_nil]
  | cons e es ih => rw [evaluateAll, List.mapM_cons, ih]

theorem evaluateProperties_eq_mapM (ctx : Context) (properties : List (Value × Expr)) :
    evaluateProperties ctx properties = properties.mapM fun property => do
      return (.text property.1.toText, ← property.2.evaluate ctx) := by
  induction properties with
  | nil => rw [evaluateProperties, List.mapM_nil]
  | cons property rest ih =>
    rw [evaluateProperties, List.mapM_cons, ih]
    simp

/-! ### What fails in a part fails -/

section Failing

variable {f : Failure} {s t u : Session}

theorem callee_fails {callee : Expr} {arguments : List Expr} {vs : List Value}
    (hs : (evaluateAll ctx arguments).start s = (.ok vs, t)) (h : (callee.evaluate ctx).start t = (.error f, u)) :
    ((Expr.call callee arguments).evaluate ctx).start s = (.error f, u) := by
  rw [evaluate, Run.start_bind_ok hs]
  cases callee with
  | literal | name =>
    rw [evaluate, Run.start_pure] at h
    cases h
  | member target name =>
    rw [evaluate] at h
    obtain htarget | ⟨v, w, -, h⟩ := Run.of_start_bind_error h
    · exact Run.start_bind_error htarget
    · rw [Run.start_pure] at h
      cases h
  | index target key =>
    rw [evaluate] at h
    obtain htarget | ⟨v, w, hv, h⟩ := Run.of_start_bind_error h
    · exact Run.start_bind_error htarget
    · simp only [Run.start_bind_ok hv]
      split at h
      · cases h
      · next hmissing =>
        rw [if_neg hmissing]
        obtain hkey | ⟨k, w, -, h⟩ := Run.of_start_bind_error h
        · exact Run.start_bind_error hkey
        · cases h
  | _ => exact Run.start_bind_error h

/-- A failure of a part is the failure of the whole. -/
theorem Needs.fails {e part : Expr} (hn : Needs ctx e s part t) (h : (part.evaluate ctx).start t = (.error f, u)) :
    (e.evaluate ctx).start s = (.error f, u) := by
  cases hn with
  | owner | target | operand | left | first | test =>
    rw [evaluate]
    exact Run.start_bind_error h
  | key ht hv =>
    rw [evaluate, Run.start_bind_ok ht]
    simp only [hv, Bool.false_eq_true, if_false]
    exact Run.start_bind_error h
  | right hl =>
    rw [evaluate, Run.start_bind_ok hl]
    exact Run.start_bind_error h
  | second hl ha =>
    rw [evaluate, Run.start_bind_ok hl]
    simp only [ha, Bool.false_eq_true, if_false]
    exact h
  | branch ht =>
    rw [evaluate, Run.start_bind_ok ht]
    split
    · next hv => rwa [if_pos hv] at h
    · next hv => rwa [if_neg hv] at h
  | element hb =>
    rw [evaluateAll_eq_mapM] at hb
    rw [evaluate, evaluateAll_eq_mapM]
    exact Run.start_bind_error (Run.start_mapM_error _ hb h)
  | property hb =>
    rw [evaluateProperties_eq_mapM] at hb
    rw [evaluate, evaluateProperties_eq_mapM]
    exact Run.start_bind_error (Run.start_mapM_error _ hb (Run.start_bind_error h))
  | argument hb =>
    rw [evaluateAll_eq_mapM] at hb
    rw [evaluate, evaluateAll_eq_mapM]
    exact Run.start_bind_error (Run.start_mapM_error _ hb h)
  | callee hs => exact callee_fails hs h

theorem Overloads.fails {e : Expr} (h : Overloads ctx e s) : ∃ f t, (e.evaluate ctx).start s = (.error f, t) := by
  induction h with
  | @operation op left right a b s t u hl hr h =>
    obtain ⟨-, -, -, hfit⟩ | ⟨cause, happly, -⟩ := op.apply_outcome a b
    · exact absurd h hfit
    · refine ⟨.arithmetic cause, u, ?_⟩
      rw [evaluate, Run.start_bind_ok hl, Run.start_bind_ok hr, happly]
      rfl
  | part hn _ ih =>
    obtain ⟨f, t, hf⟩ := ih
    exact ⟨f, t, hn.fails hf⟩

end Failing

/-! ### What does not fail gives a value -/

/-- Nothing is the value of a call of what has no name and is no callable. -/
theorem anonymous_succeeds {r : Run Value} {bad : Prop} {s : Session} (h : r.Succeeds s Value.Inert bad)
    (values : List Value) : (do
      match ← r with
      | .callable f => f.invoke "<anonymous>" values
      | _ => return .undefined : Run Value).Succeeds s Value.Inert bad := by
  refine h.bind fun v t _ hv => ?_
  cases v with
  | callable f => exact absurd rfl (hv.notCallable f)
  | _ => exact .pure .undefined

mutual

/-- Where no callable is in reach, an expression has a value, or its evaluation comes to an excessive
operation and fails there. -/
theorem evaluate_succeeds (hctx : ctx.Inert) (e : Expr) (h : ∀ v ∈ e.literals, v.Inert) (s : Session) :
    (e.evaluate ctx).Succeeds s Value.Inert (Overloads ctx e s) := by
  cases e with
  | literal v => exact .pure (h v (List.mem_singleton_self v))
  | name s => exact .pure (hctx.resolveName s)
  | member target name =>
    refine ((evaluate_succeeds hctx target h s).weaken (.part .owner)).bind fun v t _ hv => .pure ?_
    split
    · exact .undefined
    · exact hv.member _
  | index target key =>
    obtain ⟨htarget, hkey⟩ := List.forall_mem_append.1 h
    refine ((evaluate_succeeds hctx target htarget s).weaken (.part .target)).bind fun v t hv hvi => ?_
    cases hm : v.isMissing
    · refine ((evaluate_succeeds hctx key hkey t).weaken (.part (.key hv hm))).bind fun k u _ _ => ?_
      exact .pure (hvi.member k)
    · exact .pure .undefined
  | unary op argument =>
    refine ((evaluate_succeeds hctx argument h s).weaken (.part .operand)).bind fun v t _ _ => .pure ?_
    cases op
    · exact .bool _
    · exact .number _
    · exact .number _
  | binary op left right =>
    obtain ⟨hleft, hright⟩ := List.forall_mem_append.1 h
    refine ((evaluate_succeeds hctx left hleft s).weaken (.part .left)).bind fun a t ha _ => ?_
    refine ((evaluate_succeeds hctx right hright t).weaken (.part (.right ha))).bind fun b u hb _ => ?_
    obtain ⟨v, happly, hv, -⟩ | ⟨cause, happly, hexcess⟩ := op.apply_outcome a b
    · rw [happly]
      exact .pure hv
    · rw [happly]
      exact .inr ⟨cause, u, rfl, .operation ha hb hexcess⟩
  | logical op left right =>
    obtain ⟨hleft, hright⟩ := List.forall_mem_append.1 h
    refine ((evaluate_succeeds hctx left hleft s).weaken (.part .first)).bind fun a t ha hai => ?_
    cases hs : op.settles a
    · exact (evaluate_succeeds hctx right hright t).weaken (.part (.second ha hs))
    · exact .pure hai
  | conditional test yes no =>
    obtain ⟨h, hno⟩ := List.forall_mem_append.1 h
    obtain ⟨htest, hyes⟩ := List.forall_mem_append.1 h
    refine ((evaluate_succeeds hctx test htest s).weaken (.part .test)).bind fun v t hv _ => ?_
    have hbranch : Needs ctx (.conditional test yes no) s (if v.isTrue then yes else no) t := .branch hv
    cases hb : v.isTrue
    · rw [hb] at hbranch
      exact (evaluate_succeeds hctx no hno t).weaken (.part hbranch)
    · rw [hb] at hbranch
      exact (evaluate_succeeds hctx yes hyes t).weaken (.part hbranch)
  | array elements =>
    rw [evaluate, evaluateAll_eq_mapM]
    refine ((Run.Succeeds.mapM (elements_succeed hctx elements h) s).weaken ?_).bind fun vs t _ hvs => .pure (.list hvs)
    rintro ⟨before, e, after, vs, t, rfl, hb, hbad⟩
    rw [← evaluateAll_eq_mapM] at hb
    exact .part (.element hb) hbad
  | object properties =>
    rw [evaluate, evaluateProperties_eq_mapM]
    have hentry : ∀ property ∈ properties, ∀ s,
        (do return (Value.text property.1.toText, ← property.2.evaluate ctx) : Run (Value × Value)).Succeeds s
          (fun entry => entry.2.Inert) (Overloads ctx property.2 s) := fun property hp s =>
      (properties_succeed hctx properties h property hp s).bind fun v t _ hv => .pure hv
    refine ((Run.Succeeds.mapM hentry s).weaken ?_).bind fun entries t _ he =>
      .pure (.map (Entries.forall_update (p := Value.Inert) (List.forall_mem_nil _) he))
    rintro ⟨before, ⟨key, e⟩, after, vs, t, rfl, hb, hbad⟩
    rw [← evaluateProperties_eq_mapM] at hb
    exact .part (.property hb) hbad
  | call callee arguments =>
    obtain ⟨hcallee, harguments⟩ := List.forall_mem_append.1 h
    rw [evaluate, evaluateAll_eq_mapM]
    refine ((Run.Succeeds.mapM (elements_succeed hctx arguments harguments) s).weaken ?_).bind fun vs t ht hvs => ?_
    · rintro ⟨before, e, after, vs, t, rfl, hb, hbad⟩
      rw [← evaluateAll_eq_mapM] at hb
      exact .part (.argument hb) hbad
    rw [← evaluateAll_eq_mapM] at ht
    have hpart : Overloads ctx callee t → Overloads ctx (.call callee arguments) s := .part (.callee ht)
    cases callee with
    | name s => exact (Builtin.callValue_succeeds hvs s (hctx.resolveName s) t).weaken False.elim
    | member target name =>
      refine ((evaluate_succeeds hctx target hcallee t).weaken fun hbad => hpart (.part .owner hbad)).bind
        fun v u _ hv => ?_
      cases v.isMissing
      · exact (Builtin.callValue_succeeds hvs name (hv.member _) u).weaken False.elim
      · exact .pure .undefined
    | index target key =>
      obtain ⟨htarget, hkey⟩ := List.forall_mem_append.1 hcallee
      refine ((evaluate_succeeds hctx target htarget t).weaken fun hbad => hpart (.part .target hbad)).bind
        fun v u hv hvi => ?_
      cases hm : v.isMissing
      · refine ((evaluate_succeeds hctx key hkey u).weaken fun hbad => hpart (.part (.key hv hm) hbad)).bind
          fun k w _ _ => ?_
        cases k.isMissing
        · exact (Builtin.callValue_succeeds hvs _ (hvi.member k) w).weaken False.elim
        · exact .pure .undefined
      · exact .pure .undefined
    | _ => exact anonymous_succeeds ((evaluate_succeeds hctx _ hcallee t).weaken hpart) vs

theorem elements_succeed (hctx : ctx.Inert) (es : List Expr) (h : ∀ v ∈ literalsAll es, v.Inert) :
    ∀ e ∈ es, ∀ s, (e.evaluate ctx).Succeeds s Value.Inert (Overloads ctx e s) := by
  cases es with
  | nil => exact List.forall_mem_nil _
  | cons e es =>
    obtain ⟨he, hes⟩ := List.forall_mem_append.1 h
    exact List.forall_mem_cons.2 ⟨evaluate_succeeds hctx e he, elements_succeed hctx es hes⟩

theorem properties_succeed (hctx : ctx.Inert) (properties : List (Value × Expr))
    (h : ∀ v ∈ literalsOf properties, v.Inert) : ∀ property ∈ properties, ∀ s,
      (property.2.evaluate ctx).Succeeds s Value.Inert (Overloads ctx property.2 s) := by
  cases properties with
  | nil => exact List.forall_mem_nil _
  | cons property rest =>
    obtain ⟨key, e⟩ := property
    obtain ⟨he, hrest⟩ := List.forall_mem_append.1 h
    exact List.forall_mem_cons.2 ⟨evaluate_succeeds hctx e he, properties_succeed hctx rest hrest⟩

end

end Expr

namespace Context

variable {engine : Engine} {ctx : Context} {s : Session}

/-- The text is an expression, and its evaluation comes to an operation with excessive operands. -/
def Overloads (ctx : Context) (text : String) (s : Session) : Prop :=
  ∃ e t, (Expr.remembered (Text.strip text)).start s = (.ok (some e), t) ∧ e.Overloads ctx t

theorem evaluateText_succeeds (hctx : ctx.Inert) (hs : s.Sound engine) (text : String) :
    (ctx.evaluateText text).Succeeds s Value.Inert (ctx.Overloads text s) := by
  unfold evaluateText
  simp only
  split
  · exact .pure .undefined
  · obtain ⟨t, hr, -⟩ := Run.start_remembered (Text.strip text) hs
    have hread : (Expr.remembered (Text.strip text)).Succeeds s
        (fun reading => reading = (Expr.parse (Text.strip text)).toOption) (ctx.Overloads text s) :=
      .inl ⟨_, t, hr, rfl⟩
    refine hread.bind fun reading t ht hreading => ?_
    cases reading with
    | some e =>
      have hparse : Expr.parse (Text.strip text) = .ok e := by
        cases hp : Expr.parse (Text.strip text) <;> rw [hp] at hreading <;> cases hreading
        rfl
      exact (Expr.evaluate_succeeds hctx e (Expr.inert_literals hparse) t).weaken fun h => ⟨e, t, ht, h⟩
    | none =>
      have hpath := hctx.resolvePath (Text.strip text)
      simp only
      split
      · split
        · exact .pure .undefined
        · exact .pure (.text _)
      · exact .pure hpath

theorem Overloads.fails {text : String} (hs : s.Sound engine) (h : ctx.Overloads text s) :
    ∃ f t, (ctx.evaluateText text).start s = (.error f, t) := by
  obtain ⟨e, t, hr, he⟩ := h
  have hne : Text.strip text ≠ "" := by
    intro hempty
    obtain ⟨u, hu, -⟩ := Run.start_remembered (Text.strip text) hs
    rw [hr, hempty] at hu
    cases hu
  obtain ⟨f, u, hf⟩ := he.fails
  refine ⟨f, u, ?_⟩
  rw [evaluateText]
  simp only [hne, if_false]
  rw [Run.start_bind_ok hr]
  exact hf

end Context

end PipelineTemplate
