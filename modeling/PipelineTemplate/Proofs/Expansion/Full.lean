import Mathlib
import PipelineTemplate.Proofs.Expansion.Hollow

/-!
# Expanded documents are full

Nothing that stands in an expanded document is undefined, unless something hollow came in on the way. This
is a contract in which what stands in a value, be it an item or the value of an entry, is defined.
-/

namespace PipelineTemplate.Expansion

namespace Passage

/-- In contexts that are reached, parts that stand where they should become full values. -/
def fullness (p : Passage) (root : Context) : Contract where
  reached := p.Reached root
  stands := p.Stands root
  refers := p.Refers root
  whole := Value.Full
  item := Value.Defined
  entry := Value.Defined

variable {p : Passage} {root : Context} (hs : p.first.Sound p.engine) (hh : ¬p.Hollow root)

include hs hh

/-- Without anything hollow, values are full if those of the parameters of kept references are. -/
theorem fullness_rules {n : Nat} (hk : ∀ ctx parameters, p.Ensures (keepWithin p.engine n ctx parameters)
    fun v => p.Reached root ctx → p.Kept root parameters → v.Full) :
    ContractRules p (.sound p.engine) (keepWithin p.engine n) (p.fullness root) where
  before h := h.1
  evaluation := Run.along_evaluation p.engine
  pass := Run.along_pass
  fetch := along_fetch
  given := along_given n
  entered := .inr
  used h := ⟨_, h, .refl⟩
  child := Stands.child
  inserted := Stands.inserted
  written := .written
  listed reached kept value := .listed reached kept (Attains.takes hs value)
  whole_iff := by
    refine ⟨fun h => ⟨fun _ => h.child, fun items hl x hx => h.child ?_⟩, fun h => Value.full_of_children h.1⟩
    rw [Value.children_of_list? hl]
    exact hx
  whole_of_entry h := h.2
  entry_of_whole h hu := ⟨hu, h⟩
  entry_of_item := id
  item_of_entry h _ := h
  became _ _ _ _ _ h := h
  evaluated mode ctx _ hw := by
    refine (ensures_evaluateText hs hh mode ctx hw).mono fun v hv reached stands => ?_
    refine ⟨fun _ => (hv.2 reached stands).child, ?_⟩
    rintro rfl
    exact ⟨hv.2 reached stands, fun _ _ hr => .evaluated reached stands hw hv.1 hr⟩
  kept := ensures_preserveReference hs hh hk
  contributed _ _ _ h := h.contribution

theorem ensures_expandValue {n : Nat} (hk : ∀ ctx parameters, p.Ensures (keepWithin p.engine n ctx parameters)
    fun v => p.Reached root ctx → p.Kept root parameters → v.Full) (mode : Mode) (ctx : Context)
    (node : Value) :
    p.Ensures (expandValue p.engine (keepWithin p.engine n) mode ctx node) fun v =>
      p.Reached root ctx → p.Stands root mode node → v.Full :=
  ((fullness_rules hs hh hk).ensures_expandValue mode ctx node).mono
    fun _ hv reached stands => (hv reached stands).1

/-- What keepers give is full, however many references may be kept one inside the other. -/
theorem ensures_keepWithin (n : Nat) (ctx : Context) (parameters : Value) :
    p.Ensures (keepWithin p.engine n ctx parameters) fun v =>
      p.Reached root ctx → p.Kept root parameters → v.Full := by
  induction n generalizing ctx parameters with
  | zero => exact ⟨along_keepWithin 0 ctx parameters, fun _ _ _ _ h _ => nomatch h⟩
  | succ n ih => exact ensures_expandValue hs hh ih .preserving ctx parameters

end Passage

/-- Nothing that stands in an expanded part of a document, at any depth, is undefined, unless one of three
things happens on the way: an expression that a text consists of has a value in which something is undefined,
or a reference that is kept has parameters that come to nothing, or a template that is no full value. -/
theorem expand_full (engine : Engine) (ctx : Context) (source result : Value) (first last : Session)
    (hs : first.Sound engine) (h : (expand engine ctx source).start first = (.ok result, last)) :
    result.Full ∨ Passage.Hollow ⟨engine, source, first, last⟩ ctx := by
  by_cases hh : Passage.Hollow ⟨engine, source, first, last⟩ ctx
  · exact .inr hh
  · left
    have kept := Passage.ensures_keepWithin hs hh engine.nesting
    have full := Passage.ensures_expandValue hs hh kept .resolving ctx source
    apply full.holds first result last (Course.refl _ first) h (Course.refl _ last) (.inl rfl)
    exact ⟨source, .source, .refl⟩

theorem expand_full_dropped : ∃ last : Session, Session.Sound {} {} ∧
    (expand {} { directory := "/" } (.list [.text "a", .text "$\x7b\x7b b.c \x7d\x7d"])).start {} =
      (.ok (.list [.text "a"]), last) ∧
    ((Value.list [.text "a"]).Full ∨
      Passage.Hollow ⟨{}, .list [.text "a", .text "$\x7b\x7b b.c \x7d\x7d"], {}, last⟩
        { directory := "/" }) := by
  let ctx : Context := { directory := "/" }
  let last : Session := { expressions := [("b.c", some (.member (.name "b") "c"))] }
  have plain (s : String) : ∀ d body, directiveItem? (.text s) = some (d, body) → d = .insert := nofun
  have rest (keep : Keeper) : (expandItems {} keep .resolving ctx false
      [.text "$\x7b\x7b b.c \x7d\x7d"]).start {} = (.ok [], last) := by
    have missing : (expandValue {} keep .resolving ctx (.text "$\x7b\x7b b.c \x7d\x7d")).start {} =
        (.ok .undefined, last) := by
      rw [expandValue_scalar rfl rfl rfl, expandScalar_whole (by decide)]
      cbv
    rw [expandItems_plain rfl (plain _), Run.start_bind_ok missing]
    simp only [expandItems_nil, Run.start_pure]
  have items (keep : Keeper) : (expandItems {} keep .resolving ctx false
      [.text "a", .text "$\x7b\x7b b.c \x7d\x7d"]).start {} = (.ok [.text "a"], last) := by
    rw [expandItems_plain rfl (plain _), expandValue_text (by decide), pure_bind]
    exact Run.start_bind_ok (rest keep)
  have h : (expand {} ctx (.list [.text "a", .text "$\x7b\x7b b.c \x7d\x7d"])).start {} =
      (.ok (.list [.text "a"]), last) := by
    rw [expand, expandValue_items rfl]
    exact Run.start_bind_ok (items _)
  have sound : Session.Sound {} {} := Session.sound_fresh [] {}
  exact ⟨last, sound, h, expand_full {} ctx _ _ {} last sound h⟩

end PipelineTemplate.Expansion
