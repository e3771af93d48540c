import PipelineTemplate.Proofs.Expansion.Contract
import PipelineTemplate.Proofs.Pipeline.Reuse

/-!
# Hollow values

A value is full if nothing that stands in it at any depth is undefined. There are three ways for something
undefined to come into an expanded document: an expression that is a whole text has a value that is not full,
a reference is kept whose parameters come to nothing, or one whose template is no full value itself.
-/

namespace PipelineTemplate

/-- What is remembered stays right while runs go on. -/
def Course.sound (engine : Engine) : Course where
  leads s t := s.Before t ∧ (s.Sound engine → t.Sound engine)
  refl s := ⟨.refl s, id⟩
  trans h h' := ⟨h.1.trans h'.1, h'.2 ∘ h.2⟩

namespace Run

variable {engine : Engine} {α : Type}

/-- A run that goes on and may be repeated keeps to what is right. -/
theorem Advances.along {r : Run α} (ha : r.Advances) (hr : r.Repeatable engine) :
    r.Along (.sound engine) := by
  intro s
  refine ⟨ha s, fun h => ?_⟩
  exact (hr s s ⟨rfl, rfl, h, h⟩).2.1.left

theorem along_evaluation (engine : Engine) : EvaluationRules fun _ r => r.Along (.sound engine) where
  pure := along_pure
  bind := along_bind
  report level speaker event fields :=
    (advances_evaluation.report level speaker event fields).along (repeatable_report level speaker event fields)
  remembered text := (advances_evaluation.remembered text).along (repeatable_remembered text)
  apply op a b := (advances_evaluation.apply op a b).along ((repeatable_evaluation engine).apply op a b)
  call f arguments := (advances_evaluation.call f arguments).along (repeatable_call f arguments)
  notSerializable := advances_evaluation.notSerializable.along (repeatable_throw _)

theorem along_pass (point : Waypoint) : (pass point).Along (.sound engine) :=
  (advances_pass point).along (repeatable_pass point)

end Run

namespace Value

/-- Nothing in a value is undefined. -/
def Full (v : Value) : Prop := ∀ c : Value, c.Within v → Value.undefined ∉ c.children

/-- A value that is not undefined, and in which nothing is. -/
def Defined (v : Value) : Prop := v ≠ .undefined ∧ v.Full

theorem full_of_children {v : Value} (h : ∀ c ∈ v.children, c.Defined) : v.Full := by
  intro c hw hu
  cases hw with
  | refl => exact (h _ hu).1 rfl
  | child hc hw => exact (h _ hc).2 c hw hu

theorem Full.child {v c : Value} (h : v.Full) (hc : c ∈ v.children) : c.Defined := by
  constructor
  · rintro rfl
    exact h v .refl hc
  · intro d hw
    exact h d (.child hc hw)

theorem full_leaf {v : Value} (hi : v.items? = none) (hp : v.pairs? = none) : v.Full := by
  apply full_of_children
  intro c hc
  rw [children_of_other hi hp] at hc
  cases hc

theorem full_list {items : List Value} (h : ∀ item ∈ items, item.Defined) : (Value.list items).Full :=
  full_of_children h

theorem full_map {entries : Entries} (h : ∀ entry ∈ entries, entry.2.Defined) :
    (Value.map entries).Full := by
  apply full_of_children
  intro c hc
  obtain ⟨entry, he, rfl⟩ := List.mem_map.1 hc
  exact h entry he

theorem Full.entries {v : Value} (h : v.Full) : ∀ entry ∈ v.entries?.getD [], entry.2.Defined :=
  forall_entries fun _ hc => h.child hc

/-- What a template contributes is full if what its document became is. -/
theorem Full.contribution {v : Value} (h : v.Full) : (Template.contribution v).Full := by
  unfold Template.contribution
  split
  · exact h
  · have body := Entries.forall_erase h.entries (.text "parameters")
    cases hb : Template.bodyUnder ((v.entries?.getD []).erase (.text "parameters")) Template.bodyKeys with
    | none =>
      simp only [hb, Option.getD_none]
      split
      · exact full_list (List.forall_mem_nil _)
      · exact full_list (List.forall_mem_singleton.2 ⟨nofun, full_map body⟩)
    | some found =>
      simp only [hb, Option.getD_some]
      obtain ⟨key, -, w, hw, rfl⟩ := Expansion.Passage.exists_of_bodyUnder hb
      have hd : w.Defined := Entries.get?_of_all body hw
      split
      · exact hd.2
      · exact full_list (List.forall_mem_singleton.2 hd)

end Value

namespace Expansion

namespace Passage

variable (p : Passage)

/-- A run gives a value in a session on the way, in which what is remembered is right. -/
def Takes {α : Type} (r : Run α) (a : α) : Prop :=
  ∃ s t, p.first.Before s ∧ s.Sound p.engine ∧ r.start s = (.ok a, t) ∧ t.Before p.last

/-- The context that the expansion begins in, and those that are entered on the way. -/
def Reached (root ctx : Context) : Prop := ctx = root ∨ p.Enters ctx

/-- A value that a mapping of a document inserts. -/
def Inserted (node : Value) : Prop :=
  ∃ (mapping : Value) (entries : Entries), p.Written mapping ∧ mapping.pairs? = some entries ∧
    ∃ entry ∈ entries, Directive.ofKey? entry.1 = some .insert ∧ entry.2 = node

mutual

/-- What is expanded with its references kept: what is inserted, the parameters of the references that are
kept in it, and the parts of these. -/
inductive Kept (p : Passage) (root : Context) : Value → Prop where
  | inserted {node : Value} (inserted : p.Inserted node) : Kept p root node
  | parameters {ctx : Context} {template parameters : Value}
      (refers : Refers p root ctx template parameters) : Kept p root parameters
  | child {node c : Value} (kept : Kept p root node) (mem : c ∈ node.children) : Kept p root c

/-- A reference that is kept in a context: it is written, the value of an expression, or an item of a list
that another value comes to. -/
inductive Refers (p : Passage) (root : Context) : Context → Value → Value → Prop where
  | written {ctx : Context} {node template parameters : Value} (kept : Kept p root node)
      (reference : node.reference? = some (template, parameters)) : Refers p root ctx template parameters
  | evaluated {ctx : Context} {text : String} {v template parameters : Value}
      (reached : p.Reached root ctx) (kept : Kept p root (.text text))
      (whole : isWholeExpression (Text.strip text) = true)
      (value : p.Takes (ctx.evaluateText (expressionBody (Text.strip text))) v)
      (reference : v.reference? = some (template, parameters)) : Refers p root ctx template parameters
  | listed {ctx : Context} {n : Nat} {node v item template parameters : Value} {items : List Value}
      (reached : p.Reached root ctx) (kept : Kept p root node)
      (value : p.Takes (expandValue p.engine (keepWithin p.engine n) .preserving ctx node) v)
      (list : v.list? = some items) (mem : item ∈ items)
      (reference : item.reference? = some (template, parameters)) : Refers p root ctx template parameters

end

/-- Where the parts of values stand that are expanded in a mode. -/
def Stands (root : Context) : Mode → Value → Prop
  | .resolving, node => p.Written node
  | .preserving, node => p.Kept root node

/-- Somewhere on the way something undefined comes in. -/
inductive Hollow (root : Context) : Prop where
  /-- An expression that a text consists of has a value in which something is undefined. -/
  | inherited {mode : Mode} {ctx : Context} {text : String} {v : Value} (reached : p.Reached root ctx)
      (stands : p.Stands root mode (.text text)) (whole : isWholeExpression (Text.strip text) = true)
      (value : p.Takes (ctx.evaluateText (expressionBody (Text.strip text))) v) (hollow : ¬v.Full)
  /-- A reference that is kept has parameters that come to nothing. -/
  | blank {ctx : Context} {n : Nat} {template parameters : Value} (reached : p.Reached root ctx)
      (refers : p.Refers root ctx template parameters)
      (value : p.Takes (keepWithin p.engine n ctx parameters) .undefined)
  /-- A reference that is kept has a template that is undefined, or in which something is. -/
  | unnamed {ctx : Context} {template parameters : Value} (reached : p.Reached root ctx)
      (refers : p.Refers root ctx template parameters) (hollow : ¬template.Defined)

variable {p} {root : Context} {mode : Mode} {node : Value}

theorem Stands.child {c : Value} (h : p.Stands root mode node) (hc : c ∈ node.children) :
    p.Stands root mode c := by
  cases mode with
  | resolving => exact Written.child h hc
  | preserving => exact .child h hc

/-- What a mapping inserts is kept. -/
theorem Stands.inserted {entries : Entries} {entry : Value × Value} (h : p.Stands root mode node)
    (hp : node.pairs? = some entries) (he : entry ∈ entries) (hk : Directive.ofKey? entry.1 = some .insert) :
    p.Kept root entry.2 := by
  cases mode with
  | resolving => exact .inserted ⟨node, entries, h, hp, entry, he, hk, rfl⟩
  | preserving =>
    refine .child h ?_
    rw [Value.children_of_pairs? hp]
    exact List.mem_map_of_mem he

/-! ## What is taken -/

/-- What a run gives on the way, if what is remembered is right, has a property. -/
abbrev Ensures {α : Type} (p : Passage) (r : Run α) (post : α → Prop) : Prop :=
  Run.Ensures (.sound p.engine) p.first p.last r post

theorem along_fetch (ctx : Context) (name : String) :
    (fetch p.engine ctx name).Along (.sound p.engine) :=
  (advances_fetch ctx name).along (repeatable_fetch ctx name)

theorem along_expandValue (n : Nat) (mode : Mode) (ctx : Context) (node : Value) :
    (expandValue p.engine (keepWithin p.engine n) mode ctx node).Along (.sound p.engine) :=
  (advances_expandValue n mode ctx node).along (repeatable_expandValue n mode ctx node)

theorem along_keepWithin (n : Nat) (ctx : Context) (parameters : Value) :
    (keepWithin p.engine n ctx parameters).Along (.sound p.engine) :=
  (advances_keepWithin n ctx parameters).along (repeatable_keepWithin n ctx parameters)

theorem along_given (n : Nat) (ctx : Context) (parameters : Value) :
    (given p.engine (keepWithin p.engine n) ctx parameters).Along (.sound p.engine) := by
  unfold given
  split
  · exact Run.along_pure _
  · rw [map_eq_pure_bind]
    exact Run.along_bind (along_expandValue n .preserving ctx parameters) fun _ => Run.along_pure _

section Taken

variable (hs : p.first.Sound p.engine)

include hs

theorem Attains.takes {α : Type} {r : Run α} {a : α} (h : p.Attains (.sound p.engine) r a) :
    p.Takes r a := by
  obtain ⟨s, t, hfirst, hstart, hlast⟩ := h
  exact ⟨s, t, hfirst.1, hfirst.2 hs, hstart, hlast.1⟩

/-- What a run gives on the way is taken from it. -/
theorem ensures_takes {α : Type} {r : Run α} {post : α → Prop} (h : p.Ensures r post) :
    p.Ensures r fun a => post a ∧ p.Takes r a :=
  h.attained.mono fun _ ha => ⟨ha.1, Attains.takes hs ha.2⟩

variable (hh : ¬p.Hollow root)

include hh

/-- Without anything hollow, the value of an expression that a text consists of is full. -/
theorem ensures_evaluateText (mode : Mode) (ctx : Context) {text : String}
    (whole : isWholeExpression (Text.strip text) = true) :
    p.Ensures (ctx.evaluateText (expressionBody (Text.strip text))) fun v =>
      p.Takes (ctx.evaluateText (expressionBody (Text.strip text))) v ∧
        (p.Reached root ctx → p.Stands root mode (.text text) → v.Full) := by
  have evaluated := (Run.along_evaluation p.engine).evaluateText ctx (expressionBody (Text.strip text))
  refine (ensures_takes hs (.of_along evaluated)).mono fun v hv => ⟨hv.2, fun reached stands => ?_⟩
  exact Classical.not_not.1 fun hollow => hh (.inherited reached stands whole hv.2 hollow)

omit hs in
/-- The name of a reference that is kept is defined, with the expressions in it replaced. -/
theorem ensures_substituteValue (ctx : Context) (template parameters : Value) :
    p.Ensures (ctx.substituteValue template) fun v =>
      p.Reached root ctx → p.Refers root ctx template parameters → v.Defined := by
  have named (reached : p.Reached root ctx) (refers : p.Refers root ctx template parameters) :
      template.Defined := Classical.not_not.1 fun hollow => hh (.unnamed reached refers hollow)
  unfold Context.substituteValue
  split
  · rename_i s
    apply (Run.Ensures.of_along ((Run.along_evaluation p.engine).substitute ctx s)).bind
    intro name
    exact .pure fun _ _ _ => ⟨by simp, Value.full_leaf rfl rfl⟩
  · exact .pure named

/-- What becomes of a reference that is kept is full if what the keeper gives is. -/
theorem ensures_preserveReference {n : Nat}
    (hk : ∀ ctx parameters, p.Ensures (keepWithin p.engine n ctx parameters) fun v =>
      p.Reached root ctx → p.Kept root parameters → v.Full)
    (ctx : Context) (template parameters : Value) :
    p.Ensures (preserveReference (keepWithin p.engine n) ctx template parameters) fun v =>
      p.Reached root ctx → p.Refers root ctx template parameters → v.Defined := by
  unfold preserveReference
  apply (ensures_substituteValue hh ctx template parameters).bind
  intro name
  cases parameters.isUndefined with
  | true =>
    refine .pure fun hname reached refers => ⟨nofun, Value.full_map ?_⟩
    exact List.forall_mem_singleton.2 (hname reached refers)
  | false =>
    apply (ensures_takes hs (hk ctx parameters)).bind
    intro v
    refine .pure fun hv hname reached refers => ⟨nofun, Value.full_map ?_⟩
    have defined : v.Defined := by
      refine ⟨?_, hv.1 reached (.parameters refers)⟩
      rintro rfl
      exact hh (.blank reached refers hv.2)
    exact List.forall_mem_cons.2 ⟨hname reached refers, List.forall_mem_singleton.2 defined⟩

end Taken

end Passage

end Expansion

end PipelineTemplate
