import PipelineTemplate.Proofs.Yaml.Document
import PipelineTemplate.Yaml.Node

/-!
# The node of a document

The tokens of a draft are read as a node of the same form, whose scalars have the texts and styles of the
draft. Only the lines of the nodes are not those of the draft, which has none.
-/

namespace PipelineTemplate.Yaml

namespace Node

/-- The tag of a scalar without a tag of its own. -/
def tagIn (schema : Schema) (style : Style) (text : List Char) : Tag :=
  if style = .plain then schema.tagOf (String.ofList text) else .text

mutual

/-- Whether a node has the form of a draft. -/
def Spells (schema : Schema) : Draft → Node → Prop
  | .scalar style text, node => ∃ line, node = .scalar (tagIn schema style text) (String.ofList text) style line
  | .sequence items, node =>
    ∃ nodes line, node = .sequence .sequence nodes line ∧ SpellsItems schema items nodes
  | .mapping entries, node =>
    ∃ pairs line, node = .mapping .mapping pairs line ∧ SpellsEntries schema entries pairs

def SpellsItems (schema : Schema) : List Draft → List Node → Prop
  | [], nodes => nodes = []
  | item :: items, nodes =>
    ∃ node more, nodes = node :: more ∧ Spells schema item node ∧ SpellsItems schema items more

def SpellsEntries (schema : Schema) : List (DraftKey × Draft) → List (Node × Node) → Prop
  | [], pairs => pairs = []
  | (key, value) :: entries, pairs =>
    ∃ line node more,
      pairs = (.scalar (tagIn schema key.style key.text) (String.ofList key.text) key.style line, node) :: more ∧
        Spells schema value node ∧ SpellsEntries schema entries more

end

/-! ## Reading a node -/

/-- A part of the reading gives something and leaves some tokens; there are no anchors. -/
def Gives {α : Type} {P : Rest → Prop} (x : Except Fault (α × {r : Rest // P r})) (a : α)
    (left : List Lexeme) : Prop :=
  ∃ h, x = .ok (a, ⟨⟨left, []⟩, h⟩)

variable {g : Setting} {place : Place} {l : Lexeme} {ls left : List Lexeme}

@[simp] theorem anchor_none (s : Rest) (node : Node) : s.anchor none node = s := rfl

/-- The tokens with which a node begins that has no properties. -/
def isFirst : Token → Bool
  | .scalar .. | .mark .openSequence | .mark .openMapping | .mark .blockSequence | .mark .blockMapping => true
  | _ => false

theorem properties_first (h : isFirst l.token = true) :
    properties g ⟨l :: ls, []⟩ = .ok ({}, ⟨⟨l :: ls, []⟩, Nat.le_refl _⟩) := by
  cases ht : l.token <;> simp_all [isFirst, properties, Rest.next, bind, Except.bind, pure, Except.pure]

theorem read_scalar {text : String} {style : Style} (h : l.token = .scalar text style) :
    Gives (read g place ⟨l :: ls, []⟩)
      (.scalar (if style = .plain then g.schema.tagOf text else .text) text style l.line) ls := by
  have hproperties := @properties_first g l ls (by rw [h]; rfl)
  rw [read]
  simp [Rest.next, h, hproperties, bind, Except.bind, pure, Except.pure, contentOf, demandNew, Gives, scalarTag,
    Rest.size]

theorem read_blockSequence {items : List Node} (h : l.token = .mark .blockSequence) (hp : place.block = true)
    (hitems : Gives (blockItems g place.inSequences ⟨ls, []⟩) items left) :
    Gives (read g place ⟨l :: ls, []⟩) (.sequence .sequence items l.line) left := by
  have hproperties := @properties_first g l ls (by rw [h]; rfl)
  obtain ⟨hleft, hitems⟩ := hitems
  rw [read]
  simp [Rest.next, h, hproperties, bind, Except.bind, pure, Except.pure, contentOf, demandNew, Gives, hp, hitems,
    collectionTag]
  simp [Rest.size] at hleft ⊢
  omega

theorem read_blockMapping {pairs : List (Node × Node)} (h : l.token = .mark .blockMapping) (hp : place.block = true)
    (hpairs : Gives (blockPairs g ⟨ls, []⟩) pairs left) :
    Gives (read g place ⟨l :: ls, []⟩) (.mapping .mapping pairs l.line) left := by
  have hproperties := @properties_first g l ls (by rw [h]; rfl)
  obtain ⟨hleft, hpairs⟩ := hpairs
  rw [read]
  simp [Rest.next, h, hproperties, bind, Except.bind, pure, Except.pure, contentOf, demandNew, Gives, hp, hpairs,
    collectionTag]
  simp [Rest.size] at hleft ⊢
  omega

/-- Brackets with nothing between them. -/
theorem read_openSequence {m : Lexeme} (h : l.token = .mark .openSequence) (hm : m.token = .mark .closeSequence) :
    Gives (read g place ⟨l :: m :: ls, []⟩) (.sequence .sequence [] l.line) ls := by
  have hproperties := @properties_first g l (m :: ls) (by rw [h]; rfl)
  have hsize : ls.length < ls.length + 1 + 1 := by omega
  rw [read]
  simp [Rest.next, h, hm, hproperties, bind, Except.bind, pure, Except.pure, contentOf, demandNew, Gives,
    collectionTag, flowItems, Rest.size, hsize]

theorem read_openMapping {m : Lexeme} (h : l.token = .mark .openMapping) (hm : m.token = .mark .closeMapping) :
    Gives (read g place ⟨l :: m :: ls, []⟩) (.mapping .mapping [] l.line) ls := by
  have hproperties := @properties_first g l (m :: ls) (by rw [h]; rfl)
  have hsize : ls.length < ls.length + 1 + 1 := by omega
  rw [read]
  simp [Rest.next, h, hm, hproperties, bind, Except.bind, pure, Except.pure, contentOf, demandNew, Gives,
    collectionTag, flowPairs, Rest.size, hsize]

/-- A part that is not left out. -/
theorem part_read {ends : List Mark} {line : Nat} {node : Node} (h : isFirst l.token = true)
    (hends : ∀ m ∈ ends, isFirst (.mark m) = false) (hread : Gives (read g place ⟨l :: ls, []⟩) node left) :
    Gives (part g place ends line ⟨l :: ls, []⟩) node left := by
  have hnone : (ends.any fun m => l.token = .mark m) = false := by
    rw [List.any_eq_false]
    intro m hm hl
    rw [decide_eq_true_iff.1 hl, hends m hm] at h
    cases h
  obtain ⟨hleft, hread⟩ := hread
  rw [part]
  simp only [Rest.next, bind, Except.bind, hnone, Bool.false_eq_true, if_false, hread, pure, Except.pure]
  exact ⟨Nat.le_of_lt hleft, rfl⟩

/-! ## Items and pairs -/

theorem blockItems_end {inSequences : Bool} (h : l.token = .mark .blockEnd) :
    Gives (blockItems g inSequences ⟨l :: ls, []⟩) [] ls := by
  rw [blockItems]
  simp [Rest.next, h, bind, Except.bind, pure, Except.pure, Gives, Rest.size]

theorem blockItems_cons {inSequences : Bool} {item : Node} {items : List Node} {after : List Lexeme}
    (h : l.token = .mark .blockEntry)
    (hitem : Gives (part g ⟨true, false, inSequences⟩ [.blockEntry, .blockEnd] l.line ⟨ls, []⟩) item after)
    (hitems : Gives (blockItems g inSequences ⟨after, []⟩) items left) :
    Gives (blockItems g inSequences ⟨l :: ls, []⟩) (item :: items) left := by
  obtain ⟨hafter, hitem⟩ := hitem
  obtain ⟨hleft, hitems⟩ := hitems
  rw [blockItems]
  simp [Rest.next, h, bind, Except.bind, pure, Except.pure, Gives, hitem, hitems]
  simp [Rest.size] at hafter hleft ⊢
  omega

theorem blockPairs_end (h : l.token = .mark .blockEnd) : Gives (blockPairs g ⟨l :: ls, []⟩) [] ls := by
  rw [blockPairs]
  simp [Rest.next, h, bind, Except.bind, pure, Except.pure, Gives, Rest.size]

theorem blockPairs_cons {m o : Lexeme} {value : Node} {pairs : List (Node × Node)} {text : String} {style : Style}
    {after : List Lexeme} (h : l.token = .mark .key) (hm : m.token = .scalar text style)
    (ho : o.token = .mark .value)
    (hvalue : Gives (part g ⟨true, true, false⟩ [.key, .value, .blockEnd] o.line ⟨ls, []⟩) value after)
    (hpairs : Gives (blockPairs g ⟨after, []⟩) pairs left) :
    Gives (blockPairs g ⟨l :: m :: o :: ls, []⟩)
      ((.scalar (if style = .plain then g.schema.tagOf text else .text) text style m.line, value) :: pairs)
      left := by
  obtain ⟨hkey, hread⟩ := @part_read _ ⟨true, true, false⟩ _ _ _ [.key, .value, .blockEnd] l.line _
    (by rw [hm]; rfl) (by decide) (@read_scalar g _ _ (o :: ls) _ _ hm)
  obtain ⟨hafter, hvalue⟩ := hvalue
  obtain ⟨hleft, hpairs⟩ := hpairs
  rw [blockPairs]
  simp [Rest.next, h, bind, Except.bind, pure, Except.pure, Gives, hread, valuePart, ho, hvalue, hpairs]
  simp [Rest.size] at hafter hleft ⊢
  omega

/-! ## The node of a draft -/

theorem exists_first (d : Draft) : ∃ t ts, d.tokens = t :: ts ∧ isFirst t = true := by
  match d with
  | .scalar .. => exact ⟨_, _, by rw [Draft.tokens], rfl⟩
  | .sequence [] => exact ⟨_, _, by rw [Draft.tokens], rfl⟩
  | .sequence (item :: items) => exact ⟨_, _, by rw [Draft.tokens]; rfl, rfl⟩
  | .mapping [] => exact ⟨_, _, by rw [Draft.tokens], rfl⟩
  | .mapping (entry :: entries) => exact ⟨_, _, by rw [Draft.tokens]; rfl, rfl⟩

theorem part_draft {d : Draft} {ends : List Mark} {line : Nat} {node : Node} {more : List Lexeme}
    (h : ls.map Lexeme.token = d.tokens) (hends : ∀ m ∈ ends, isFirst (.mark m) = false)
    (hread : Gives (read g place ⟨ls ++ more, []⟩) node left) :
    Gives (part g place ends line ⟨ls ++ more, []⟩) node left := by
  obtain ⟨t, ts, ht, hfirst⟩ := exists_first d
  rw [ht] at h
  obtain ⟨l, rest, rfl, rfl, -⟩ := List.map_eq_cons_iff.1 h
  exact part_read hfirst hends hread

mutual

/-- The tokens of a draft are read as a node of its form. -/
theorem read_draft : ∀ (d : Draft) (place : Place) (ls more : List Lexeme), place.block = true →
    ls.map Lexeme.token = d.tokens →
    ∃ node, Gives (read g place ⟨ls ++ more, []⟩) node more ∧ Spells g.schema d node
  | .scalar style text, place, ls, more, hp, h => by
    rw [Draft.tokens] at h
    obtain ⟨l, rest, rfl, hl, hrest⟩ := List.map_eq_cons_iff.1 h
    obtain rfl := List.map_eq_nil_iff.1 hrest
    refine ⟨_, read_scalar hl, ?_⟩
    rw [Spells]
    exact ⟨l.line, rfl⟩
  | .sequence [], place, ls, more, hp, h => by
    rw [Draft.tokens] at h
    obtain ⟨l, rest, rfl, hl, hrest⟩ := List.map_eq_cons_iff.1 h
    obtain ⟨m, rest, rfl, hm, hrest⟩ := List.map_eq_cons_iff.1 hrest
    obtain rfl := List.map_eq_nil_iff.1 hrest
    refine ⟨_, read_openSequence hl hm, ?_⟩
    rw [Spells]
    exact ⟨[], l.line, rfl, by rw [SpellsItems]⟩
  | .sequence (item :: items), place, ls, more, hp, h => by
    rw [Draft.tokens, List.cons_append] at h
    obtain ⟨l, rest, rfl, hl, hrest⟩ := List.map_eq_cons_iff.1 h
    obtain ⟨ls, last, rfl, hls, hlast⟩ := List.map_eq_append_iff.1 hrest
    obtain ⟨e, rest, rfl, he, hrest⟩ := List.map_eq_cons_iff.1 hlast
    obtain rfl := List.map_eq_nil_iff.1 hrest
    obtain ⟨nodes, hread, hspells⟩ := read_items (item :: items) place.inSequences ls e more he hls
    rw [List.cons_append, List.append_assoc]
    refine ⟨.sequence .sequence nodes l.line, read_blockSequence hl hp hread, ?_⟩
    rw [Spells]
    exact ⟨nodes, l.line, rfl, hspells⟩
  | .mapping [], place, ls, more, hp, h => by
    rw [Draft.tokens] at h
    obtain ⟨l, rest, rfl, hl, hrest⟩ := List.map_eq_cons_iff.1 h
    obtain ⟨m, rest, rfl, hm, hrest⟩ := List.map_eq_cons_iff.1 hrest
    obtain rfl := List.map_eq_nil_iff.1 hrest
    refine ⟨_, read_openMapping hl hm, ?_⟩
    rw [Spells]
    exact ⟨[], l.line, rfl, by rw [SpellsEntries]⟩
  | .mapping (entry :: entries), place, ls, more, hp, h => by
    rw [Draft.tokens, List.cons_append] at h
    obtain ⟨l, rest, rfl, hl, hrest⟩ := List.map_eq_cons_iff.1 h
    obtain ⟨ls, last, rfl, hls, hlast⟩ := List.map_eq_append_iff.1 hrest
    obtain ⟨e, rest, rfl, he, hrest⟩ := List.map_eq_cons_iff.1 hlast
    obtain rfl := List.map_eq_nil_iff.1 hrest
    obtain ⟨pairs, hread, hspells⟩ := read_entries (entry :: entries) ls e more he hls
    rw [List.cons_append, List.append_assoc]
    refine ⟨.mapping .mapping pairs l.line, read_blockMapping hl hp hread, ?_⟩
    rw [Spells]
    exact ⟨pairs, l.line, rfl, hspells⟩

theorem read_items : ∀ (items : List Draft) (inSequences : Bool) (ls : List Lexeme) (e : Lexeme)
    (more : List Lexeme), e.token = .mark .blockEnd → ls.map Lexeme.token = Draft.itemTokens items →
    ∃ nodes, Gives (blockItems g inSequences ⟨ls ++ e :: more, []⟩) nodes more ∧
      SpellsItems g.schema items nodes
  | [], inSequences, ls, e, more, he, h => by
    rw [Draft.itemTokens] at h
    obtain rfl := List.map_eq_nil_iff.1 h
    exact ⟨[], blockItems_end he, by rw [SpellsItems]⟩
  | item :: items, inSequences, ls, e, more, he, h => by
    rw [Draft.itemTokens, List.cons_append] at h
    obtain ⟨l, rest, rfl, hl, hrest⟩ := List.map_eq_cons_iff.1 h
    obtain ⟨first, others, rfl, hfirst, hothers⟩ := List.map_eq_append_iff.1 hrest
    obtain ⟨node, hread, hnode⟩ :=
      read_draft item ⟨true, false, inSequences⟩ first (others ++ e :: more) rfl hfirst
    obtain ⟨nodes, hitems, hnodes⟩ := read_items items inSequences others e more he hothers
    refine ⟨node :: nodes, ?_, ?_⟩
    · rw [List.cons_append, List.append_assoc]
      exact blockItems_cons hl (part_draft hfirst (by decide) hread) hitems
    · rw [SpellsItems]
      exact ⟨node, nodes, rfl, hnode, hnodes⟩

theorem read_entries : ∀ (entries : List (DraftKey × Draft)) (ls : List Lexeme) (e : Lexeme)
    (more : List Lexeme), e.token = .mark .blockEnd → ls.map Lexeme.token = Draft.entryTokens entries →
    ∃ pairs, Gives (blockPairs g ⟨ls ++ e :: more, []⟩) pairs more ∧ SpellsEntries g.schema entries pairs
  | [], ls, e, more, he, h => by
    rw [Draft.entryTokens] at h
    obtain rfl := List.map_eq_nil_iff.1 h
    exact ⟨[], blockPairs_end he, by rw [SpellsEntries]⟩
  | (key, value) :: entries, ls, e, more, he, h => by
    rw [Draft.entryTokens, List.cons_append, List.cons_append, List.cons_append] at h
    obtain ⟨l, rest, rfl, hl, hrest⟩ := List.map_eq_cons_iff.1 h
    obtain ⟨m, rest, rfl, hm, hrest⟩ := List.map_eq_cons_iff.1 hrest
    obtain ⟨o, rest, rfl, ho, hrest⟩ := List.map_eq_cons_iff.1 hrest
    obtain ⟨first, others, rfl, hfirst, hothers⟩ := List.map_eq_append_iff.1 hrest
    obtain ⟨node, hread, hnode⟩ := read_draft value ⟨true, true, false⟩ first (others ++ e :: more) rfl hfirst
    obtain ⟨pairs, hpairs, hspells⟩ := read_entries entries others e more he hothers
    have hgives := blockPairs_cons hl hm ho (part_draft hfirst (by decide) hread) hpairs
    rw [← List.append_assoc] at hgives
    refine ⟨_, hgives, ?_⟩
    rw [SpellsEntries]
    exact ⟨m.line, node, pairs, rfl, hnode, hspells⟩

end

/-! ## The node of a text -/

theorem firstDocument_first {schema : Schema} {cut : Fault} {node : Node} (h : isFirst l.token = true)
    (hread : Gives (read ⟨schema, defaultHandles, cut⟩ ⟨true, false, true⟩ ⟨l :: ls, []⟩) node left) :
    firstDocument schema cut ⟨l :: ls, []⟩ = .ok (some (node, ⟨left, []⟩)) := by
  have hboundary : isBoundary l.token = false := by
    cases hl : l.token with
    | mark m => cases m <;> simp_all [isFirst, isBoundary]
    | _ => simp_all [isFirst, isBoundary]
  obtain ⟨hleft, hread⟩ := hread
  simp [firstDocument, Rest.next, hboundary, hread, bind, Except.bind, pure, Except.pure]

theorem demandLast_end {cut : Fault} {s : Rest} (hdrop : dropDocumentEnds s = ⟨l :: ls, []⟩)
    (h : l.token = .mark .streamEnd) : demandLast cut s = .ok () := by
  unfold demandLast
  generalize dropDocumentEnds s = t at hdrop ⊢
  subst hdrop
  simp [Rest.next, h, bind, Except.bind, pure, Except.pure]

/-- A text whose tokens are those of a draft is read as a node of its form. -/
theorem ofText_tokens {text : List Char} {d : Draft} {lexemes : List Lexeme} (marked : Bool) (schema : Schema)
    (hlexemes : tokens text = .ok (lexemes, none)) (htokens : lexemes.map Lexeme.token =
      .mark .streamStart :: d.tokens ++ (if marked then [.mark .documentEnd] else []) ++ [.mark .streamEnd]) :
    ∃ node, ofText schema text = .ok (some node) ∧ Spells schema d node := by
  rw [List.append_assoc, List.cons_append] at htokens
  obtain ⟨s, rest, rfl, -, hrest⟩ := List.map_eq_cons_iff.1 htokens
  obtain ⟨ls, last, rfl, hls, hlast⟩ := List.map_eq_append_iff.1 hrest
  obtain ⟨node, hread, hspells⟩ := read_draft (g := ⟨schema, defaultHandles, .yaml ⟨.tokens, none⟩⟩) d
    ⟨true, false, true⟩ ls last rfl hls
  have hdocument : firstDocument schema (.yaml ⟨.tokens, none⟩) ⟨ls ++ last, []⟩ = .ok (some (node, ⟨last, []⟩)) := by
    obtain ⟨t, ts, ht, hfirst⟩ := exists_first d
    rw [ht] at hls
    obtain ⟨l, more, rfl, rfl, -⟩ := List.map_eq_cons_iff.1 hls
    exact firstDocument_first hfirst hread
  have hlastly : demandLast (.yaml ⟨.tokens, none⟩) ⟨last, []⟩ = .ok () := by
    cases marked with
    | false =>
      obtain ⟨e, rest, rfl, he, -⟩ := List.map_eq_cons_iff.1 hlast
      exact @demandLast_end _ rest _ _ (by simp [dropDocumentEnds, he]) he
    | true =>
      obtain ⟨e, rest, rfl, he, hrest⟩ := List.map_eq_cons_iff.1 hlast
      obtain ⟨f, rest, rfl, hf, -⟩ := List.map_eq_cons_iff.1 hrest
      exact @demandLast_end _ rest _ _ (by simp [dropDocumentEnds, he, hf]) hf
  refine ⟨node, ?_, hspells⟩
  rw [ofText, hlexemes]
  simp [hdocument, hlastly, bind, Except.bind, pure, Except.pure]

/-- The text of a draft is read as a node of its form. -/
theorem ofText_draft {d : Draft} {marked : Bool} (schema : Schema) (hvalid : Draft.Valid d.rootIndent d)
    (hmark : d.NeedsMark → marked = true) :
    ∃ node, ofText schema (d.text marked) = .ok (some node) ∧ Spells schema d node := by
  obtain ⟨lexemes, hlexemes, htokens⟩ := Draft.tokens_text hvalid hmark
  exact ofText_tokens marked schema hlexemes htokens

/-- A text whose only token is a scalar in quotes is read as that scalar. -/
theorem ofText_quoted {text cs : List Char} {style : Style} (hstyle : style = .single ∨ style = .double)
    (htokens : ∃ lexemes, tokens text = .ok (lexemes, none) ∧
      lexemes.map Lexeme.token = [.mark .streamStart, Reader.scalarToken style cs, .mark .streamEnd])
    (schema : Schema) : ∃ line, ofText schema text = .ok (some (.scalar .text (String.ofList cs) style line)) := by
  obtain ⟨lexemes, hlexemes, htokens⟩ := htokens
  obtain ⟨node, hnode, hspells⟩ :=
    ofText_tokens (d := .scalar style cs) false schema hlexemes (by simpa [Draft.tokens] using htokens)
  rw [Spells] at hspells
  obtain ⟨line, rfl⟩ := hspells
  have htag : tagIn schema style cs = .text := by
    rcases hstyle with rfl | rfl <;> rfl
  exact ⟨line, by rw [hnode, htag]⟩

end Node

end PipelineTemplate.Yaml
