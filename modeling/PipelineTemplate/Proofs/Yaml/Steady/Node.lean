import PipelineTemplate.Proofs.Yaml.Steady.Reader
import PipelineTemplate.Yaml.Node

/-!
# Nodes on other lines

The tokens of a text, whatever lines they stand on, are read as the same node on other lines, or reading
fails in the same way. It fails because the nodes are not well formed, or because the tokens end too soon.
-/

namespace PipelineTemplate

/-- The cause without its line. -/
def Fault.bare : Fault → Fault
  | .yaml ⟨stage, _⟩ => .yaml ⟨stage, none⟩
  | fault => fault

@[simp] theorem Fault.bare_below (lines : Nat) (f : Fault) : (f.below lines).bare = f.bare := by
  cases f <;> rfl

/-- Two outcomes of related runs: both give related things, or both fail in related ways. -/
inductive Twin {ε α β : Type} (E : ε → ε → Prop) (R : α → β → Prop) : Except ε α → Except ε β → Prop
  | ok {a : α} {b : β} (related : R a b) : Twin E R (.ok a) (.ok b)
  | error {e e' : ε} (related : E e e') : Twin E R (.error e) (.error e')

namespace Twin

variable {ε α β α' β' : Type} {E E' : ε → ε → Prop} {R : α → β → Prop} {S : α' → β' → Prop}

theorem bind {x : Except ε α} {y : Except ε β} {g : α → Except ε α'} {h : β → Except ε β'} (hxy : Twin E R x y)
    (hgh : ∀ a b, R a b → Twin E S (g a) (h b)) : Twin E S (x >>= g) (y >>= h) := by
  cases hxy with
  | ok related => exact hgh _ _ related
  | error related => exact .error related

theorem mono {x : Except ε α} {y : Except ε β} (h : Twin E R x y) (hE : ∀ e e', E e e' → E' e e') :
    Twin E' R x y := by
  cases h with
  | ok related => exact .ok related
  | error related => exact .error (hE _ _ related)

end Twin

namespace Yaml

namespace Node

mutual

/-- The node without its lines. -/
def bare : Node → Node
  | .scalar tag text style _ => .scalar tag text style 0
  | .sequence tag items _ => .sequence tag (bareItems items) 0
  | .mapping tag pairs _ => .mapping tag (barePairs pairs) 0
  | .enclosing inSequences _ => .enclosing inSequences 0

def bareItems : List Node → List Node
  | [] => []
  | item :: items => bare item :: bareItems items

def barePairs : List (Node × Node) → List (Node × Node)
  | [] => []
  | (key, value) :: pairs => (bare key, bare value) :: barePairs pairs

end

/-- The same tokens are left, and the same nodes have names. -/
structure Alike (s t : Rest) : Prop where
  lexemes : t.lexemes.map Lexeme.token = s.lexemes.map Lexeme.token
  anchors : t.anchors.map (fun p => (p.1, bare p.2)) = s.anchors.map fun p => (p.1, bare p.2)

/-- A fault of a malformed document. -/
def Malformed (f : Fault) : Prop := ∃ e, f = .yaml e

/-- The same fault on perhaps another line, for some cause. -/
def For (cause : Fault → Prop) (f f' : Fault) : Prop := f'.bare = f.bare ∧ cause f

theorem For.mono {cause cause' : Fault → Prop} {f f' : Fault} (h : For cause f f') (hcause : cause f → cause' f) :
    For cause' f f' := ⟨h.1, hcause h.2⟩

theorem fail_twin {α β : Type} {R : α → β → Prop} (stage : YamlStage) (line line' : Nat) :
    Twin (For Malformed) R (fail stage line) (fail stage line') := .error ⟨rfl, _, rfl⟩

/-- A malformed text, or one whose tokens end too soon. -/
abbrev Cut (cut : Fault) : Fault → Fault → Prop := For fun f => Malformed f ∨ f = cut

theorem fail_cut {cut : Fault} {α β : Type} {R : α → β → Prop} (stage : YamlStage) (line line' : Nat) :
    Twin (Cut cut) R (fail stage line) (fail stage line') :=
  (fail_twin stage line line').mono fun _ _ h => h.mono .inl

/-- What was read looks the same, and so does what is left. -/
def Same {α γ : Type} (view : α → γ) {P Q : Rest → Prop} (a : α × {r // P r}) (b : α × {r // Q r}) : Prop :=
  view b.1 = view a.1 ∧ Alike a.2.1 b.2.1

theorem bind_same {α β β' γ : Type} {f : α → γ} {P Q : Rest → Prop} {E : Fault → Fault → Prop} {R : β → β' → Prop}
    {x : Except Fault (α × {r // P r})} {y : Except Fault (α × {r // Q r})} {g : α × {r // P r} → Except Fault β}
    {k : α × {r // Q r} → Except Fault β'} (hxy : Twin E (Same f) x y)
    (hgk : ∀ a s b t, f b = f a → Alike s.1 t.1 → Twin E R (g (a, s)) (k (b, t))) :
    Twin E R (x >>= g) (y >>= k) := by
  refine hxy.bind fun a b hab => ?_
  obtain ⟨a, s⟩ := a
  obtain ⟨b, t⟩ := b
  exact hgk a s b t hab.1 hab.2

variable {schema : Schema} {handles : List (String × String)} {cut cut' : Fault} {s t : Rest}

/-! ## Tokens and names -/

theorem next_twin (hcut : cut'.bare = cut.bare) (h : Alike s t) :
    Twin (Cut cut) (Same Lexeme.token) (s.next cut) (t.next cut') := by
  obtain ⟨ls, as⟩ := s
  obtain ⟨ms, bs⟩ := t
  obtain ⟨hls, has⟩ := h
  cases ls with
  | nil =>
    obtain rfl := List.map_eq_nil_iff.1 hls
    exact .error ⟨hcut, .inr rfl⟩
  | cons l ls =>
    obtain ⟨m, ms, rfl, hm, hms⟩ := List.map_eq_cons_iff.1 hls
    exact .ok ⟨hm, hms, has⟩

theorem Alike.anchor (h : Alike s t) {name name' : Option String} (hname : name' = name) {a b : Node}
    (hab : bare b = bare a) : Alike (s.anchor name a) (t.anchor name' b) := by
  subst hname
  cases name' with
  | none => exact h
  | some name => exact ⟨h.lexemes, by
      change (name, bare b) :: _ = (name, bare a) :: _
      rw [hab, h.anchors]⟩

theorem Alike.lookup (h : Alike s t) (name : String) :
    (t.anchors.lookup name).map bare = (s.anchors.lookup name).map bare := by
  have hmap (anchors : List (String × Node)) :
      (anchors.map fun p => (p.1, bare p.2)).lookup name = (anchors.lookup name).map bare := by
    induction anchors with
    | nil => rfl
    | cons p ps ih =>
      rw [List.map_cons, List.lookup_cons, List.lookup_cons, ih]
      cases name == p.1 <;> rfl
  rw [← hmap, ← hmap, h.anchors]

/-! ## Properties -/

theorem tagName_twin (handle : Option String) (suffix : String) (line line' : Nat) :
    Twin (Cut cut) (fun a b => b = a) (tagName ⟨schema, handles, cut⟩ handle suffix line)
      (tagName ⟨schema, handles, cut'⟩ handle suffix line') := by
  cases handle with
  | none => exact .ok rfl
  | some handle =>
    rw [tagName, tagName]
    dsimp only
    cases handles.lookup handle with
    | none => exact fail_cut _ _ _
    | some start => exact .ok rfl

theorem properties_twin (hcut : cut'.bare = cut.bare) (h : Alike s t) :
    Twin (Cut cut) (Same fun p => (p.anchor, p.tag)) (properties ⟨schema, handles, cut⟩ s)
      (properties ⟨schema, handles, cut'⟩ t) := by
  rw [properties, properties]
  refine bind_same (next_twin hcut h) fun l u l' u' hl hu => ?_
  dsimp only
  rw [hl]
  split
  · refine bind_same (next_twin hcut hu) fun m v m' v' hm hv => ?_
    dsimp only
    rw [hm]
    split
    · exact (tagName_twin _ _ _ _).bind fun a b hab => .ok ⟨by rw [hab], hv⟩
    · exact .ok ⟨rfl, hu⟩
  · refine bind_same (next_twin hcut hu) fun m v m' v' hm hv => ?_
    dsimp only
    rw [hm]
    split
    · exact (tagName_twin _ _ _ _).bind fun a b hab => .ok ⟨by rw [hab], hv⟩
    · exact (tagName_twin _ _ _ _).bind fun a b hab => .ok ⟨by rw [hab], hu⟩
  · exact .ok ⟨rfl, h⟩

/-- A name that is given twice is given twice whatever the lines are. -/
theorem demandNew_twin {α β : Type} {R : α → β → Prop} {p q : Properties} (hpq : q.anchor = p.anchor)
    (h : Alike s t) (line line' : Nat) {x : Except Fault α} {y : Except Fault β} (hxy : Twin (Cut cut) R x y) :
    Twin (Cut cut) R (demandNew p line s >>= fun _ => x) (demandNew q line' t >>= fun _ => y) := by
  rw [demandNew, demandNew, hpq]
  cases p.anchor with
  | none => exact hxy
  | some name =>
    have hsome : (t.anchors.lookup name).isSome = (s.anchors.lookup name).isSome := by
      rw [← Option.isSome_map (f := bare), h.lookup, Option.isSome_map]
    dsimp only
    rw [hsome]
    split
    · exact fail_cut _ _ _
    · exact hxy

theorem Alike.size (h : Alike s t) : t.size = s.size := by
  have hlength := congrArg List.length h.lexemes
  rwa [List.length_map, List.length_map] at hlength

/-- Between brackets the next thing stands behind a comma, if it is not the first. -/
theorem Alike.choice (h : Alike s t) {u : {r : Rest // r.size < s.size}} {v : {r : Rest // r.size < t.size}}
    (huv : Alike u.1 v.1) (first : Bool) :
    Alike (if first then (⟨s, Nat.le_refl _⟩ : {r : Rest // r.size ≤ s.size}) else ⟨u.1, Nat.le_of_lt u.2⟩).1
      (if first then (⟨t, Nat.le_refl _⟩ : {r : Rest // r.size ≤ t.size}) else ⟨v.1, Nat.le_of_lt v.2⟩).1 := by
  split
  · exact h
  · exact huv

section Bare

variable {p q : Properties} (htag : q.tag = p.tag)
include htag

theorem bare_scalar {g g' : Setting} (hschema : g'.schema = g.schema) (text : String) (style : Style) (plain : Bool)
    (line line' : Nat) :
    bare (.scalar (scalarTag g' q text plain) text style line') =
      bare (.scalar (scalarTag g p text plain) text style line) := by
  rw [bare, bare, scalarTag, scalarTag, htag, hschema]

theorem bare_sequence {items items' : List Node} (h : bareItems items' = bareItems items) (line line' : Nat) :
    bare (.sequence (collectionTag q .sequence) items' line') =
      bare (.sequence (collectionTag p .sequence) items line) := by
  rw [bare, bare, h, collectionTag, collectionTag, htag]

theorem bare_mapping {pairs pairs' : List (Node × Node)} (h : barePairs pairs' = barePairs pairs)
    (line line' : Nat) :
    bare (.mapping (collectionTag q .mapping) pairs' line') =
      bare (.mapping (collectionTag p .mapping) pairs line) := by
  rw [bare, bare, h, collectionTag, collectionTag, htag]

end Bare

/-! ## Nodes -/

-- The readers call each other with what is left, or with the same rest and a lower rank; so do the proofs.
mutual

theorem read_twin (hcut : cut'.bare = cut.bare) (place : Place) (s t : Rest) (h : Alike s t) :
    Twin (Cut cut) (Same bare) (read ⟨schema, handles, cut⟩ place s) (read ⟨schema, handles, cut'⟩ place t) := by
  rw [read, read]
  refine bind_same (next_twin hcut h) fun first u first' u' hfirst hu => ?_
  dsimp only
  rw [hfirst]
  split
  next name _ =>
    have hlookup := h.lookup name
    generalize s.anchors.lookup name = a at hlookup ⊢
    generalize t.anchors.lookup name = b at hlookup ⊢
    cases a with
    | none =>
      obtain rfl := Option.map_eq_none_iff.1 hlookup
      exact fail_cut _ _ _
    | some a =>
      obtain ⟨b, rfl, hab⟩ := Option.map_eq_some_iff.1 hlookup
      exact .ok ⟨hab, hu⟩
  · refine bind_same (properties_twin hcut h) fun p v q v' hpq hv => ?_
    refine bind_same (next_twin hcut hv) fun l w l' w' hl hw => ?_
    obtain ⟨hanchor, htag⟩ := Prod.mk.inj hpq
    have hshorter : w.1.size < s.size := Nat.lt_of_lt_of_le w.2 v.2
    dsimp only
    rw [hl]
    split
    next text style _ =>
      have hnode := @bare_scalar p q htag ⟨schema, handles, cut⟩ ⟨schema, handles, cut'⟩ rfl text style
        (style = .plain) (p.line.getD l.line) (q.line.getD l'.line)
      exact demandNew_twin hanchor hv _ _ (.ok ⟨hnode, hw.anchor hanchor hnode⟩)
    next start _ =>
      have hinside : Alike (w.1.anchor p.anchor (.enclosing place.inSequences (p.line.getD l.line)))
          (w'.1.anchor q.anchor (.enclosing place.inSequences (q.line.getD l'.line))) := hw.anchor hanchor rfl
      have hsize := Rest.size_anchor w.1 p.anchor (.enclosing place.inSequences (p.line.getD l.line))
      refine demandNew_twin hanchor hv _ _ ?_
      refine bind_same (f := bareItems) ?_ fun as x bs x' habs hx => ?_
      · cases start with
        | flow => exact flowItems_twin hcut place.inSequences true _ _ hinside
        | block => exact blockItems_twin hcut place.inSequences _ _ hinside
        | indentless => exact indentlessItems_twin hcut place.inSequences _ _ _ _ hinside
      · have hnode := bare_sequence htag habs (p.line.getD l.line) (q.line.getD l'.line)
        exact .ok ⟨hnode, hx.anchor hanchor hnode⟩
    next start _ =>
      have hinside : Alike (w.1.anchor p.anchor (.enclosing false (p.line.getD l.line)))
          (w'.1.anchor q.anchor (.enclosing false (q.line.getD l'.line))) := hw.anchor hanchor rfl
      have hsize := Rest.size_anchor w.1 p.anchor (.enclosing false (p.line.getD l.line))
      refine demandNew_twin hanchor hv _ _ ?_
      refine bind_same (f := barePairs) ?_ fun as x bs x' habs hx => ?_
      · cases start with
        | flow => exact flowPairs_twin hcut true _ _ hinside
        | block => exact blockPairs_twin hcut _ _ hinside
        | indentless => exact blockPairs_twin hcut _ _ hinside
      · have hnode := bare_mapping htag habs (p.line.getD l.line) (q.line.getD l'.line)
        exact .ok ⟨hnode, hx.anchor hanchor hnode⟩
    · have hsizes : v'.1.size < t.size ↔ v.1.size < s.size := by
        rw [hv.size, h.size]
      by_cases hlt : v.1.size < s.size
      · rw [dif_pos hlt, dif_pos (hsizes.2 hlt)]
        have hnode := @bare_scalar p q htag ⟨schema, handles, cut⟩ ⟨schema, handles, cut'⟩ rfl "" .plain true
          (p.line.getD l.line) (q.line.getD l'.line)
        exact demandNew_twin hanchor hv _ _ (.ok ⟨hnode, hv.anchor hanchor hnode⟩)
      · rw [dif_neg hlt, dif_neg fun hlt' => hlt (hsizes.1 hlt')]
        exact fail_cut _ _ _
termination_by (s.size, 0)

theorem part_twin (hcut : cut'.bare = cut.bare) (place : Place) (ends : List Mark) (line line' : Nat) (s t : Rest)
    (h : Alike s t) :
    Twin (Cut cut) (Same bare) (part ⟨schema, handles, cut⟩ place ends line s)
      (part ⟨schema, handles, cut'⟩ place ends line' t) := by
  rw [part, part]
  refine bind_same (next_twin hcut h) fun l u l' u' hl hu => ?_
  dsimp only
  rw [hl]
  split
  · exact .ok ⟨rfl, h⟩
  · exact bind_same (read_twin hcut place s t h) fun a v b v' hab hv => .ok ⟨hab, hv⟩
termination_by (s.size, 1)

theorem blockItems_twin (hcut : cut'.bare = cut.bare) (inSequences : Bool) (s t : Rest) (h : Alike s t) :
    Twin (Cut cut) (Same bareItems) (blockItems ⟨schema, handles, cut⟩ inSequences s)
      (blockItems ⟨schema, handles, cut'⟩ inSequences t) := by
  rw [blockItems.eq_def _ _ s, blockItems.eq_def _ _ t]
  refine bind_same (next_twin hcut h) fun l u l' u' hl hu => ?_
  have hshorter : u.1.size < s.size := u.2
  dsimp only
  rw [hl]
  split
  · refine bind_same (part_twin hcut _ _ _ _ u.1 u'.1 hu) fun a v b v' hab hv => ?_
    have hmore : v.1.size < s.size := Nat.lt_of_le_of_lt v.2 u.2
    refine bind_same (blockItems_twin hcut inSequences v.1 v'.1 hv) fun as w bs w' habs hw => .ok ⟨?_, hw⟩
    dsimp only
    rw [bareItems, bareItems, hab, habs]
  · split
    · exact .ok ⟨rfl, hu⟩
    · exact fail_cut _ _ _
termination_by (s.size, 2)

theorem indentlessItems_twin (hcut : cut'.bare = cut.bare) (inSequences : Bool) (line line' : Nat) (s t : Rest)
    (h : Alike s t) :
    Twin (Cut cut) (Same bareItems) (indentlessItems ⟨schema, handles, cut⟩ inSequences line s)
      (indentlessItems ⟨schema, handles, cut'⟩ inSequences line' t) := by
  rw [indentlessItems.eq_def _ _ _ s, indentlessItems.eq_def _ _ _ t]
  refine bind_same (part_twin hcut _ _ line line' s t h) fun a u b u' hab hu => ?_
  refine bind_same (next_twin hcut hu) fun l v l' v' hl hv => ?_
  have hshorter : v.1.size < s.size := Nat.lt_of_lt_of_le v.2 u.2
  dsimp only
  rw [hl]
  split
  · refine bind_same (indentlessItems_twin hcut inSequences _ _ v.1 v'.1 hv) fun as w bs w' habs hw =>
      .ok ⟨?_, hw⟩
    dsimp only
    rw [bareItems, bareItems, hab, habs]
  · refine .ok ⟨?_, hu⟩
    dsimp only
    rw [bareItems, bareItems, bareItems, bareItems, hab]
termination_by (s.size, 2)

theorem valuePart_twin (hcut : cut'.bare = cut.bare) (place : Place) (ends : List Mark) (s t : Rest)
    (h : Alike s t) :
    Twin (Cut cut) (Same bare) (valuePart ⟨schema, handles, cut⟩ place ends s)
      (valuePart ⟨schema, handles, cut'⟩ place ends t) := by
  rw [valuePart, valuePart]
  refine bind_same (next_twin hcut h) fun l u l' u' hl hu => ?_
  have hshorter : u.1.size < s.size := u.2
  dsimp only
  rw [hl]
  split
  · exact bind_same (part_twin hcut place ends _ _ u.1 u'.1 hu) fun a v b v' hab hv => .ok ⟨hab, hv⟩
  · exact .ok ⟨rfl, h⟩
termination_by (s.size, 2)

theorem blockPairs_twin (hcut : cut'.bare = cut.bare) (s t : Rest) (h : Alike s t) :
    Twin (Cut cut) (Same barePairs) (blockPairs ⟨schema, handles, cut⟩ s)
      (blockPairs ⟨schema, handles, cut'⟩ t) := by
  rw [blockPairs.eq_def _ s, blockPairs.eq_def _ t]
  refine bind_same (next_twin hcut h) fun l u l' u' hl hu => ?_
  have hshorter : u.1.size < s.size := u.2
  dsimp only
  rw [hl]
  split
  · refine bind_same (part_twin hcut _ _ _ _ u.1 u'.1 hu) fun a v b v' hab hv => ?_
    have hvalue : v.1.size < s.size := Nat.lt_of_le_of_lt v.2 u.2
    refine bind_same (valuePart_twin hcut _ _ v.1 v'.1 hv) fun c w d w' hcd hw => ?_
    have hmore : w.1.size < s.size := Nat.lt_of_le_of_lt w.2 hvalue
    refine bind_same (blockPairs_twin hcut w.1 w'.1 hw) fun as x bs x' habs hx => .ok ⟨?_, hx⟩
    dsimp only
    rw [barePairs, barePairs, hab, hcd, habs]
  · split
    · exact .ok ⟨rfl, hu⟩
    · exact fail_cut _ _ _
termination_by (s.size, 3)

theorem flowPair_twin (hcut : cut'.bare = cut.bare) (close : Mark) (line line' : Nat) (s t : Rest)
    (h : Alike s t) :
    Twin (Cut cut) (Same fun p => (bare p.1, bare p.2)) (flowPair ⟨schema, handles, cut⟩ close line s)
      (flowPair ⟨schema, handles, cut'⟩ close line' t) := by
  rw [flowPair, flowPair]
  refine bind_same (part_twin hcut _ _ line line' s t h) fun a u b u' hab hu => ?_
  have hle : u.1.size ≤ s.size := u.2
  refine bind_same (valuePart_twin hcut _ _ u.1 u'.1 hu) fun c v d v' hcd hv => .ok ⟨?_, hv⟩
  dsimp only
  rw [hab, hcd]
termination_by (s.size, 3)
decreasing_by
  · exact Prod.Lex.right _ (by decide)
  · simp only [Prod.lex_def]
    omega

theorem flowItems_twin (hcut : cut'.bare = cut.bare) (inSequences first : Bool) (s t : Rest) (h : Alike s t) :
    Twin (Cut cut) (Same bareItems) (flowItems ⟨schema, handles, cut⟩ inSequences first s)
      (flowItems ⟨schema, handles, cut'⟩ inSequences first t) := by
  rw [flowItems.eq_def _ _ _ s, flowItems.eq_def _ _ _ t]
  refine bind_same (next_twin hcut h) fun l u l' u' hl hu => ?_
  have hshorter : u.1.size < s.size := u.2
  dsimp only
  rw [hl]
  split
  · exact .ok ⟨rfl, hu⟩
  split
  · exact fail_cut _ _ _
  have hchoice := h.choice hu first
  generalize (if first then (⟨s, Nat.le_refl _⟩ : {r : Rest // r.size ≤ s.size})
      else ⟨u.1, Nat.le_of_lt u.2⟩) = x at hchoice ⊢
  generalize (if first then (⟨t, Nat.le_refl _⟩ : {r : Rest // r.size ≤ t.size})
      else ⟨u'.1, Nat.le_of_lt u'.2⟩) = y at hchoice ⊢
  have hle : x.1.size ≤ s.size := x.2
  refine bind_same (next_twin hcut hchoice) fun m v m' v' hm hv => ?_
  have hshorter : v.1.size < s.size := Nat.lt_of_lt_of_le v.2 x.2
  dsimp only
  rw [hm]
  split
  · exact .ok ⟨rfl, hv⟩
  split
  · refine bind_same (flowPair_twin hcut _ _ _ v.1 v'.1 hv) fun a w b w' hab hw => ?_
    have hmore : w.1.size < s.size := Nat.lt_of_le_of_lt w.2 hshorter
    refine bind_same (flowItems_twin hcut inSequences false w.1 w'.1 hw) fun as z bs z' habs hz => .ok ⟨?_, hz⟩
    obtain ⟨hkey, hvalue⟩ := Prod.mk.inj hab
    dsimp only
    rw [bareItems, bareItems, bare, bare, barePairs, barePairs, hkey, hvalue, habs]
    rfl
  · refine bind_same (read_twin hcut _ x.1 y.1 hchoice) fun a w b w' hab hw => ?_
    have hmore : w.1.size < s.size := Nat.lt_of_lt_of_le w.2 x.2
    refine bind_same (flowItems_twin hcut inSequences false w.1 w'.1 hw) fun as z bs z' habs hz => .ok ⟨?_, hz⟩
    dsimp only
    rw [bareItems, bareItems, hab, habs]
termination_by (s.size, 4)
decreasing_by all_goals (simp only [Prod.lex_def]; omega)

theorem flowPairs_twin (hcut : cut'.bare = cut.bare) (first : Bool) (s t : Rest) (h : Alike s t) :
    Twin (Cut cut) (Same barePairs) (flowPairs ⟨schema, handles, cut⟩ first s)
      (flowPairs ⟨schema, handles, cut'⟩ first t) := by
  rw [flowPairs.eq_def _ _ s, flowPairs.eq_def _ _ t]
  refine bind_same (next_twin hcut h) fun l u l' u' hl hu => ?_
  dsimp only
  rw [hl]
  split
  · exact .ok ⟨rfl, hu⟩
  split
  · exact fail_cut _ _ _
  have hchoice := h.choice hu first
  generalize (if first then (⟨s, Nat.le_refl _⟩ : {r : Rest // r.size ≤ s.size})
      else ⟨u.1, Nat.le_of_lt u.2⟩) = x at hchoice ⊢
  generalize (if first then (⟨t, Nat.le_refl _⟩ : {r : Rest // r.size ≤ t.size})
      else ⟨u'.1, Nat.le_of_lt u'.2⟩) = y at hchoice ⊢
  have hle : x.1.size ≤ s.size := x.2
  refine bind_same (next_twin hcut hchoice) fun m v m' v' hm hv => ?_
  have hshorter : v.1.size < s.size := Nat.lt_of_lt_of_le v.2 x.2
  dsimp only
  rw [hm]
  split
  · exact .ok ⟨rfl, hv⟩
  split
  · refine bind_same (flowPair_twin hcut _ _ _ v.1 v'.1 hv) fun a w b w' hab hw => ?_
    have hmore : w.1.size < s.size := Nat.lt_of_le_of_lt w.2 hshorter
    refine bind_same (flowPairs_twin hcut false w.1 w'.1 hw) fun as z bs z' habs hz => .ok ⟨?_, hz⟩
    obtain ⟨hkey, hvalue⟩ := Prod.mk.inj hab
    dsimp only
    rw [barePairs, barePairs, hkey, hvalue, habs]
  · refine bind_same (read_twin hcut _ x.1 y.1 hchoice) fun a w b w' hab hw => ?_
    have hmore : w.1.size < s.size := Nat.lt_of_lt_of_le w.2 x.2
    refine bind_same (next_twin hcut hw) fun _ _ _ _ _ _ => ?_
    refine bind_same (flowPairs_twin hcut false w.1 w'.1 hw) fun as z bs z' habs hz => .ok ⟨?_, hz⟩
    dsimp only
    rw [barePairs, barePairs, hab, habs]
    rfl
termination_by (s.size, 4)
decreasing_by all_goals (simp only [Prod.lex_def]; omega)

end

/-! ## Documents -/

theorem prologue_twin (hcut : cut'.bare = cut.bare) (version : Bool) (handles : List (String × String))
    (s t : Rest) (h : Alike s t) :
    Twin (Cut cut) (Same id) (prologue cut version handles s) (prologue cut' version handles t) := by
  rw [prologue.eq_def _ _ _ s, prologue.eq_def _ _ _ t]
  refine bind_same (next_twin hcut h) fun l u l' u' hl hu => ?_
  have hshorter : u.1.size < s.size := u.2
  dsimp only
  rw [hl]
  split
  · split
    · exact fail_cut _ _ _
    · exact bind_same (prologue_twin hcut true handles u.1 u'.1 hu) fun a v b v' hab hv => .ok ⟨hab, hv⟩
  next handle start _ =>
    split
    · exact fail_cut _ _ _
    · exact bind_same (prologue_twin hcut version ((handle, start) :: handles) u.1 u'.1 hu)
        fun a v b v' hab hv => .ok ⟨hab, hv⟩
  · exact bind_same (prologue_twin hcut version handles u.1 u'.1 hu) fun a v b v' hab hv => .ok ⟨hab, hv⟩
  · exact .ok ⟨rfl, h⟩
termination_by s.size

theorem Alike.dropDocumentEnds (h : Alike s t) : Alike (dropDocumentEnds s) (dropDocumentEnds t) := by
  have hdrop (ls : List Lexeme) : (ls.dropWhile fun l => l.token = .mark .documentEnd).map Lexeme.token =
      (ls.map Lexeme.token).dropWhile (· = .mark .documentEnd) := by
    rw [List.dropWhile_map]
    rfl
  refine ⟨?_, h.anchors⟩
  change (t.lexemes.dropWhile fun l => l.token = .mark .documentEnd).map Lexeme.token = _
  rw [hdrop, h.lexemes, ← hdrop]
  rfl

/-- The same document and the same tokens behind it, or none. -/
inductive SameDocument : Option (Node × Rest) → Option (Node × Rest) → Prop
  | none : SameDocument none none
  | some {a b : Node} {s t : Rest} (node : bare b = bare a) (rest : Alike s t) :
      SameDocument (some (a, s)) (some (b, t))

theorem explicitDocument_twin (hcut : cut'.bare = cut.bare) (h : Alike s t) :
    Twin (Cut cut) SameDocument (explicitDocument schema cut s) (explicitDocument schema cut' t) := by
  have hdrop := h.dropDocumentEnds
  rw [explicitDocument, explicitDocument]
  refine bind_same (next_twin hcut hdrop) fun first _ first' _ hfirst _ => ?_
  dsimp only
  rw [hfirst]
  split
  · exact .ok .none
  refine bind_same (prologue_twin hcut false [] _ _ hdrop) fun as u bs u' habs hu => ?_
  refine bind_same (next_twin hcut hu) fun l v l' v' hl hv => ?_
  dsimp only [id] at habs hl ⊢
  rw [hl, habs]
  split
  · exact fail_cut _ _ _
  refine bind_same (next_twin hcut hv) fun m _ m' _ hm _ => ?_
  dsimp only
  rw [hm]
  split
  · exact .ok (.some rfl hv)
  · exact bind_same (read_twin hcut _ v.1 v'.1 hv) fun a w b w' hab hw => .ok (.some hab hw)

theorem firstDocument_twin (hcut : cut'.bare = cut.bare) (h : Alike s t) :
    Twin (Cut cut) SameDocument (firstDocument schema cut s) (firstDocument schema cut' t) := by
  rw [firstDocument, firstDocument]
  refine bind_same (next_twin hcut h) fun l _ l' _ hl _ => ?_
  dsimp only
  rw [hl]
  split
  · exact explicitDocument_twin hcut h
  · exact bind_same (read_twin hcut _ s t h) fun a w b w' hab hw => .ok (.some hab hw)

theorem demandLast_twin (hcut : cut'.bare = cut.bare) (h : Alike s t) :
    Twin (Cut cut) (fun _ _ => True) (demandLast cut s) (demandLast cut' t) := by
  have hdrop := h.dropDocumentEnds
  rw [demandLast, demandLast]
  refine bind_same (next_twin hcut hdrop) fun first _ first' _ hfirst _ => ?_
  dsimp only
  rw [hfirst]
  split
  · exact .ok trivial
  refine bind_same (prologue_twin hcut false [] _ _ hdrop) fun _ u _ u' _ hu => ?_
  refine bind_same (next_twin hcut hu) fun l v l' v' hl _ => ?_
  dsimp only
  rw [hl]
  split
  · exact fail_cut _ _ _
  · exact fail_cut _ _ _

/-- The failure that follows the tokens of a text. -/
def cutOf (failure : Option Fault) : Fault := failure.getD (.yaml ⟨.tokens, none⟩)

/-- Two texts with the same tokens have the same node. -/
theorem ofText_twin {text text' : List Char} {ls ls' : List Lexeme} {failure failure' : Option Fault}
    (h : tokens text = .ok (ls, failure)) (h' : tokens text' = .ok (ls', failure'))
    (hls : ls'.map Lexeme.token = ls.map Lexeme.token)
    (hfailure : failure'.map Fault.bare = failure.map Fault.bare) :
    Twin (Cut (cutOf failure)) (fun a b => b.map bare = a.map bare) (ofText schema text)
      (ofText schema text') := by
  have hcut : (cutOf failure').bare = (cutOf failure).bare := by
    have hmap (failure : Option Fault) :
        (cutOf failure).bare = (failure.map Fault.bare).getD (.yaml ⟨.tokens, none⟩) := by
      cases failure <;> rfl
    rw [hmap, hmap, hfailure]
  have halike : Alike { lexemes := ls.drop 1 } { lexemes := ls'.drop 1 } := by
    refine ⟨?_, rfl⟩
    rw [List.map_drop, List.map_drop, hls]
  rw [ofText, ofText, h, h']
  change Twin (Cut (cutOf failure)) _ (firstDocument schema (cutOf failure) { lexemes := ls.drop 1 } >>= _)
    (firstDocument schema (cutOf failure') { lexemes := ls'.drop 1 } >>= _)
  refine (firstDocument_twin hcut halike).bind fun document document' hdocument => ?_
  cases hdocument with
  | none => exact .ok rfl
  | some node rest =>
    refine (demandLast_twin hcut rest).bind fun _ _ _ => .ok ?_
    rw [Option.map_some, Option.map_some, node]

end Node

end Yaml

end PipelineTemplate
