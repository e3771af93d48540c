import PipelineTemplate.Proofs.Yaml.Numeral
import PipelineTemplate.Proofs.Yaml.Protected.Key

/-!
# Values that come back

A value is written as a document, the reader takes the expressions out of the text, and what is left is
the text of a draft whose scalars have marks in the place of their expressions. Main statement: if all
texts of a value are faithful and its keys short, its document is read as that value.
-/

namespace PipelineTemplate

namespace Value

/-- The values that are the same when they are read back from what is written of them. -/
inductive Faithful : Value → Prop where
  | null : Faithful .null
  | bool (b : Bool) : Faithful (.bool b)
  | int (n : Int) : Faithful (.number (.int n))
  | float {x : Number.Binary64} (h : x.isFinite = true) : Faithful (.number (.float x))
  | text {s : String} (h : Yaml.Faithful s) : Faithful (.text s)
  | list {items : List Value} (h : ∀ v ∈ items, Faithful v) : Faithful (.list items)
  | map {entries : List (Value × Value)}
      (hk : ∀ p ∈ entries, ∃ s, p.1 = .text s ∧ Yaml.Faithful s ∧ Yaml.ShortKey s)
      (h : ∀ p ∈ entries, Faithful p.2) : Faithful (.map entries)

/-- Nothing is left out of a document. -/
theorem Faithful.settled_ne {v : Value} (h : v.Faithful) : v.settled ≠ .undefined := by
  cases h <;> simp [settled]

mutual

/-- The value with its mappings as documents give them. -/
def asRead : Value → Value
  | .list items => .list (asReadItems items)
  | .map entries => .pairs (asReadEntries entries)
  | v => v

def asReadItems : List Value → List Value
  | [] => []
  | v :: vs => asRead v :: asReadItems vs

def asReadEntries : List (Value × Value) → List (Value × Value)
  | [] => []
  | (k, v) :: rest => (k, asRead v) :: asReadEntries rest

end

end Value

namespace Yaml

open Protected (Protects ProtectsAll ProtectsKey mostMarks)
open ScalarText (styleOf)

/-! ## What is left of an outline -/

/-- What is written of a value at an indentation, and the draft that is left of it when its expressions
are taken out; they get the numbers from `index` on. -/
structure Prepared (n index : Nat) (v : Value) (o : Outline) (d : Draft) (spans : List (List Char)) : Prop where
  outline : v.settled.outline? = some o
  protects : Protects index (o.block n) (d.block n) spans
  isBlock : d.isBlock = o.isBlock
  valid : index + spans.length ≤ mostMarks → Draft.Valid n d
  means : ∀ before after, before.length = index →
    Node.Means .core (coreRules (before ++ spans.map String.ofList ++ after)) d v.asRead
  scalar : ∀ style cs, d = .scalar style cs → ∃ tag s, o = .scalar tag s ∧ styleOf tag s = style

/-- The same for the items of a sequence. -/
structure PreparedItems (n index : Nat) (vs : List Value) (os : List Outline) (ds : List Draft)
    (spans : List (List Char)) : Prop where
  outline : Value.outlineItems? (Value.settledItems vs) = some os
  protects : ProtectsAll index (Outline.blockItems n os) (Draft.blockItems n ds) spans
  isEmpty : ds.isEmpty = os.isEmpty
  valid : index + spans.length ≤ mostMarks → Draft.ValidItems n ds
  means : ∀ before after, before.length = index →
    Node.MeansItems .core (coreRules (before ++ spans.map String.ofList ++ after)) ds (Value.asReadItems vs)

/-- The same for the key of an entry. -/
structure PreparedKey (n index : Nat) (s : String) (key : DraftKey) (spans : List (List Char)) : Prop where
  simple : key.simple = (Outline.scalar .text s).isSimpleKey
  protects : Protects index (ScalarText.write n .text s) (writtenIn n key.text key.style) spans
  protectsKey :
    ProtectsKey index (ScalarText.write n .text s).text (writtenIn n key.text key.style).text spans
  writable : Draft.Writable key.text key.style
  isKey : index + spans.length ≤ mostMarks → key.simple = true → Reader.IsKey n key.text key.style
  tag : Node.tagIn .core key.style key.text = .text
  text : ∀ before after, before.length = index →
    (coreRules (before ++ spans.map String.ofList ++ after)).text (String.ofList key.text) key.style =
      .ok (.text s)

/-- The same for the entries of a mapping. -/
structure PreparedEntries (n index : Nat) (es : Entries) (os : List (Outline × Outline))
    (ds : List (DraftKey × Draft)) (spans : List (List Char)) : Prop where
  outline : Value.outlineEntries? (Value.settledEntries es) = some os
  protects : ProtectsAll index (Outline.blockEntries n os) (Draft.blockEntries n ds) spans
  isEmpty : ds.isEmpty = os.isEmpty
  valid : index + spans.length ≤ mostMarks → Draft.ValidEntries n ds
  means : ∀ before after, before.length = index →
    Node.MeansEntries .core (coreRules (before ++ spans.map String.ofList ++ after)) ds (Value.asReadEntries es)

/-! ## Scalars -/

/-- A word or a numeral is plain and holds no expression. -/
theorem prepared_plain (n index : Nat) {v : Value} {tag : Tag} {s : String}
    (houtline : v.settled.outline? = some (.scalar tag s)) (hread : v.asRead = v)
    (holder : Schema.older.tagOf s = tag) (htext : tag ≠ .text) (hplain : ScalarText.allowsPlain s.toList = true)
    (hne : s.toList ≠ []) (hpass : ∀ c ∈ s.toList, c ≠ '$')
    (hvalue : ∀ rules line, (rules : Rules).whole = coreWhole →
      Node.plainValue rules (.scalar (Schema.core.tagOf s) s .plain line) = .ok v) :
    Prepared n index v (.scalar tag s) (.scalar .plain s.toList) [] := by
  have hstyle : styleOf tag s = .plain := ScalarText.styleOf_plain holder htext hplain
  have hblock : (Outline.scalar tag s).block n = writtenIn n s.toList .plain := by
    rw [Outline.block, ScalarText.write_styleOf, hstyle]
  refine ⟨houtline, ?_, rfl, fun _ => ?_, fun before after _ => ?_, fun style cs h => ?_⟩
  · rw [hblock, Draft.block]
    exact Protects.of_pass hpass
  · rw [Draft.Valid]
    have hescapes := ScalarText.needsEscapes_of_allows (.inl hplain)
    exact ⟨ScalarText.isPlain_of_allowsPlain hplain hne, .inr fun c hc =>
      (ScalarText.isOrdinary_spec ((ScalarText.needsEscapes_eq_false hescapes).1 c hc)).1⟩
  · rw [Node.Means, hread]
    intro line
    rw [Node.tagIn, if_pos rfl, String.ofList_toList]
    exact hvalue _ line rfl
  · cases h
    exact ⟨tag, s, rfl, hstyle⟩

/-- A faithful text is prepared with marks in the place of its expressions. -/
theorem exists_prepared_text {n : Nat} (hn : 0 < n) (index : Nat) {s : String} (hs : Faithful s) :
    ∃ o d spans, Prepared n index (.text s) o d spans := by
  obtain ⟨opened, cs', spans, hsealed, hprotects, -⟩ :=
    Protected.exists_sealed_parts n (styleOf .text s) hs.closed index
  refine ⟨.scalar .text s, .scalar (styleOf .text s) cs', spans, rfl, ?_, rfl, fun _ => ?_, ?_, ?_⟩
  · rw [Outline.block, ScalarText.write_styleOf, Draft.block]
    exact hprotects
  · rw [Draft.Valid]
    exact hsealed.writable hs.writable
  · intro before after hindex
    rw [Node.Means]
    intro line
    rw [hs.tag hsealed]
    exact coreRules_text (hs.restored hsealed hn hindex)
  · rintro style cs ⟨⟩
    exact ⟨.text, s, rfl, rfl⟩

theorem prepared_null (n index : Nat) :
    Prepared n index .null (.scalar .null "null") (.scalar .plain "null".toList) [] := by
  refine prepared_plain n index rfl rfl rfl (by decide) (by decide) (by decide)
    (forall_mem_of_all (by decide)) fun rules line _ => ?_
  rfl

theorem exists_prepared_bool (n index : Nat) (b : Bool) : ∃ o d spans, Prepared n index (.bool b) o d spans := by
  refine ⟨_, _, _, prepared_plain n index rfl rfl ?_ (by decide) ?_ ?_ ?_ fun rules line _ => ?_⟩
  · cases b <;> rfl
  · cases b <;> decide
  · cases b <;> decide
  · cases b <;> exact forall_mem_of_all (by decide)
  · cases b <;> rfl

/-- A numeral that the two schemas give the same tag. -/
theorem prepared_numeral (n index : Nat) {v : Value} {tag : Tag} {s : String}
    (houtline : v.settled.outline? = some (.scalar tag s)) (hread : v.asRead = v)
    (hs : IsNumeral s.toList) (htag : ∀ schema : Schema, schema.tagOf s = tag) (htext : tag ≠ .text)
    (hvalue : ∀ rules line, (rules : Rules).whole = coreWhole →
      Node.plainValue rules (.scalar tag s .plain line) = .ok v) :
    Prepared n index v (.scalar tag s) (.scalar .plain s.toList) [] := by
  refine prepared_plain n index houtline hread (htag .older) htext (ScalarText.allowsPlain_numeral hs) hs.ne_nil
    (fun c hc => ?_) fun rules line hwhole => ?_
  · rintro rfl
    exact absurd (List.all_eq_true.1 hs.all_chars _ hc) (by decide)
  · rw [htag]
    exact hvalue rules line hwhole

theorem exists_prepared_int (n index : Nat) (k : Int) :
    ∃ o d spans, Prepared n index (.number (.int k)) o d spans := by
  refine ⟨_, _, _, prepared_numeral n index rfl rfl (isNumeral_ofInt k) (fun schema => tagOf_ofInt schema k)
    (by decide) fun rules line hwhole => ?_⟩
  simp only [Node.plainValue, Node.tag, Node.scalarText, hwhole, bind, Except.bind, coreWhole_ofInt]
  rfl

theorem exists_prepared_float (n index : Nat) {x : Number.Binary64} (hx : x.isFinite = true) :
    ∃ o d spans, Prepared n index (.number (.float x)) o d spans := by
  cases x with
  | infinite | nan => cases hx
  | finite negative m e h =>
    refine ⟨_, _, _, prepared_numeral n index rfl rfl (tagOf_render .core negative h).1
      (fun schema => (tagOf_render schema negative h).2) (by decide) fun rules line _ => ?_⟩
    simp only [Node.plainValue, Node.tag, Node.scalarText, bind, Except.bind, real_render]
    rfl

/-! ## Collections -/

section Collection

variable {n index : Nat}

theorem PreparedItems.nil : PreparedItems n index [] [] [] [] :=
  ⟨rfl, .nil, rfl, fun _ => trivial, fun _ _ _ => rfl⟩

theorem PreparedItems.cons {v : Value} {vs : List Value} {o : Outline} {os : List Outline} {d : Draft} {ds : List Draft}
    {spans more : List (List Char)} (h : Prepared (n + 2) index v o d spans)
    (hs : PreparedItems n (index + spans.length) vs os ds more) :
    PreparedItems n index (v :: vs) (o :: os) (d :: ds) (spans ++ more) := by
  refine ⟨?_, ?_, rfl, fun hbound => ?_, fun before after hindex => ?_⟩
  · rw [Value.settledItems, Value.outlineItems?, h.outline, hs.outline]
    rfl
  · rw [Outline.blockItems, Draft.blockItems]
    have hhyphen : ∀ c ∈ ['-', ' '], c ≠ '$' := forall_mem_of_all (by decide)
    exact .cons (h.protects.behind hhyphen) hs.protects
  · rw [List.length_append] at hbound
    exact ⟨h.valid (by omega), hs.valid (by omega)⟩
  · refine ⟨v.asRead, Value.asReadItems vs, rfl, ?_, ?_⟩
    · have hmeans := h.means before (more.map String.ofList ++ after) hindex
      simpa using hmeans
    · have hmeans := hs.means (before ++ spans.map String.ofList) after (by simp [hindex])
      simpa using hmeans

theorem PreparedItems.sequence {vs : List Value} {os : List Outline} {ds : List Draft} {spans : List (List Char)}
    (h : PreparedItems n index vs os ds spans) :
    Prepared n index (.list vs) (.sequence os) (.sequence ds) spans := by
  refine ⟨?_, ?_, ?_, h.valid, fun before after hindex => ?_, fun style cs heq => ?_⟩
  · rw [Value.settled, Value.outline?, h.outline]
    rfl
  · have hall := h.protects
    cases os with
    | nil =>
      cases ds with
      | nil =>
        cases hall
        change Protects index ⟨['[', ']'], false, false⟩ ⟨['[', ']'], false, false⟩ []
        exact Protects.of_pass (forall_mem_of_all (by decide))
      | cons => cases h.isEmpty
    | cons o os =>
      cases ds with
      | nil => cases h.isEmpty
      | cons d ds => exact hall.stacked n
  · rw [Draft.isBlock, Outline.isBlock, h.isEmpty]
  · exact ⟨_, rfl, h.means before after hindex⟩
  · cases heq

theorem exists_preparedKey {n : Nat} (hn : 0 < n) (index : Nat) {s : String} (hs : Faithful s) (hshort : ShortKey s) :
    ∃ key spans, PreparedKey n index s key spans := by
  obtain ⟨opened, cs', spans, hsealed, hprotects, hkey⟩ :=
    Protected.exists_sealed_parts n (styleOf .text s) hs.closed index
  refine ⟨⟨styleOf .text s, cs', (Outline.scalar .text s).isSimpleKey⟩, spans, rfl, ?_, ?_,
    hsealed.writable hs.writable, fun hbound hsimple => ?_, hs.tag hsealed, fun before after hindex => ?_⟩
  · rwa [ScalarText.write_styleOf]
  · rwa [ScalarText.write_styleOf]
  · exact hs.isKey hsimple hshort hsealed hkey hbound
  · exact coreRules_text (hs.restored hsealed hn hindex)

theorem PreparedEntries.nil : PreparedEntries n index [] [] [] [] :=
  ⟨rfl, .nil, rfl, fun _ => trivial, fun _ _ _ => rfl⟩

theorem outlineEntries?_cons {k v : Value} {rest : List (Value × Value)} {key value : Outline}
    {os : List (Outline × Outline)} (hne : v ≠ .undefined) (hk : k.outline? = some key) (hv : v.outline? = some value)
    (hrest : Value.outlineEntries? rest = some os) :
    Value.outlineEntries? ((k, v) :: rest) = some ((key, value) :: os) := by
  rw [Value.outlineEntries?, hk, hv, hrest]
  · rfl
  · exact hne

theorem PreparedEntries.cons {s : String} {v : Value} {es : Entries} {o : Outline} {os : List (Outline × Outline)}
    {key : DraftKey} {d : Draft} {ds : List (DraftKey × Draft)} {first second more : List (List Char)}
    (hne : v.settled ≠ .undefined) (hk : PreparedKey (n + 2) index s key first)
    (h : Prepared (n + 2) (index + first.length) v o d second)
    (hs : PreparedEntries n (index + first.length + second.length) es os ds more) :
    PreparedEntries n index ((.text s, v) :: es) ((.scalar .text s, o) :: os) ((key, d) :: ds)
      (first ++ second ++ more) := by
  refine ⟨?_, ?_, rfl, fun hbound => ?_, fun before after hindex => ?_⟩
  · rw [Value.settledEntries]
    exact outlineEntries?_cons hne rfl h.outline hs.outline
  · rw [Outline.blockEntries, Draft.blockEntries, hk.simple, h.isBlock, Outline.block]
    refine .cons (Protects.entry n _ _ hk.protectsKey hk.protects h.protects) ?_
    rw [List.length_append, ← Nat.add_assoc]
    exact hs.protects
  · rw [List.length_append, List.length_append] at hbound
    exact ⟨hk.writable, hk.isKey (by omega), h.valid (by omega), hs.valid (by omega)⟩
  · refine ⟨s, v.asRead, Value.asReadEntries es, rfl, hk.tag, ?_, ?_, ?_⟩
    · have htext := hk.text before (second.map String.ofList ++ more.map String.ofList ++ after) hindex
      simpa using htext
    · have hmeans := h.means (before ++ first.map String.ofList) (more.map String.ofList ++ after) (by simp [hindex])
      simpa using hmeans
    · have hmeans := hs.means (before ++ first.map String.ofList ++ second.map String.ofList) after
        (by simp [hindex, Nat.add_assoc])
      simpa using hmeans

theorem PreparedEntries.mapping {es : Entries} {os : List (Outline × Outline)} {ds : List (DraftKey × Draft)}
    {spans : List (List Char)} (h : PreparedEntries n index es os ds spans) :
    Prepared n index (.map es) (.mapping os) (.mapping ds) spans := by
  refine ⟨?_, ?_, ?_, h.valid, fun before after hindex => ?_, fun style cs heq => ?_⟩
  · rw [Value.settled, Value.outline?, h.outline]
    rfl
  · have hall := h.protects
    cases os with
    | nil =>
      cases ds with
      | nil =>
        cases hall
        change Protects index ⟨['\x7b', '\x7d'], false, false⟩ ⟨['\x7b', '\x7d'], false, false⟩ []
        exact Protects.of_pass (forall_mem_of_all (by decide))
      | cons => cases h.isEmpty
    | cons o os =>
      cases ds with
      | nil => cases h.isEmpty
      | cons d ds => exact hall.stacked n
  · rw [Draft.isBlock, Outline.isBlock, h.isEmpty]
  · exact ⟨_, rfl, h.means before after hindex⟩
  · cases heq

theorem exists_preparedItems (n index : Nat) {vs : List Value}
    (h : ∀ v ∈ vs, ∀ n index, 0 < n → ∃ o d spans, Prepared n index v o d spans) :
    ∃ os ds spans, PreparedItems n index vs os ds spans := by
  induction vs generalizing index with
  | nil => exact ⟨_, _, _, .nil⟩
  | cons v vs ih =>
    obtain ⟨hv, hvs⟩ := List.forall_mem_cons.1 h
    obtain ⟨o, d, spans, hfirst⟩ := hv (n + 2) index (by omega)
    obtain ⟨os, ds, more, hmore⟩ := ih (index + spans.length) hvs
    exact ⟨_, _, _, .cons hfirst hmore⟩

theorem exists_preparedEntries (n index : Nat) {es : Entries}
    (hk : ∀ p ∈ es, ∃ s, p.1 = .text s ∧ Faithful s ∧ ShortKey s) (hv : ∀ p ∈ es, p.2.Faithful)
    (h : ∀ p ∈ es, ∀ n index, 0 < n → ∃ o d spans, Prepared n index p.2 o d spans) :
    ∃ os ds spans, PreparedEntries n index es os ds spans := by
  induction es generalizing index with
  | nil => exact ⟨_, _, _, .nil⟩
  | cons p es ih =>
    obtain ⟨key, v⟩ := p
    obtain ⟨⟨s, rfl, hs, hshort⟩, hkeys⟩ := List.forall_mem_cons.1 hk
    obtain ⟨hvalue, hvalues⟩ := List.forall_mem_cons.1 hv
    obtain ⟨hfirst, hmore⟩ := List.forall_mem_cons.1 h
    obtain ⟨k, first, hkey⟩ := exists_preparedKey (n := n + 2) (by omega) index hs hshort
    obtain ⟨o, d, second, hd⟩ := hfirst (n + 2) (index + first.length) (by omega)
    obtain ⟨os, ds, more, hds⟩ := ih (index + first.length + second.length) hkeys hvalues hmore
    exact ⟨_, _, _, .cons hvalue.settled_ne hkey hd hds⟩

end Collection

/-- A faithful value is prepared at every indentation and from every number on. -/
theorem exists_prepared {v : Value} (h : v.Faithful) (n index : Nat) (hn : 0 < n) :
    ∃ o d spans, Prepared n index v o d spans := by
  induction h generalizing n index with
  | null => exact ⟨_, _, _, prepared_null n index⟩
  | bool b => exact exists_prepared_bool n index b
  | int k => exact exists_prepared_int n index k
  | float hx => exact exists_prepared_float n index hx
  | text hs => exact exists_prepared_text hn index hs
  | list _ ih =>
    obtain ⟨os, ds, spans, hitems⟩ := exists_preparedItems n index fun v hv n index hn => ih v hv n index hn
    exact ⟨_, _, _, hitems.sequence⟩
  | map hk hv ih =>
    obtain ⟨os, ds, spans, hentries⟩ := exists_preparedEntries n index hk hv fun p hp n index hn => ih p hp n index hn
    exact ⟨_, _, _, hentries.mapping⟩

/-! ## Documents -/

theorem followed_ending (w : Written) (marked : Bool) :
    w.text ++ (if w.endsLine then [] else ['\n']) ++ (if marked then ['.', '.', '.', '\n'] else []) =
      w.followed 0 (Draft.ending marked) := by
  simp [Written.followed, Cursor.lineTail, Draft.ending]

namespace Outline

def rootIndent (o : Outline) : Nat := if o.isBlock then 0 else 2

/-- A collection that takes no lines of its own is the same at every indentation. -/
theorem block_inline {o : Outline} (hb : o.isBlock = false) (ho : ∀ tag s, o ≠ .scalar tag s) (m n : Nat) :
    o.block m = o.block n := by
  match o with
  | .scalar tag s => exact absurd rfl (ho tag s)
  | .sequence [] | .mapping [] => rfl
  | .sequence (_ :: _) | .mapping (_ :: _) => cases hb

/-- The text of a document; the end of a plain scalar is marked. -/
theorem document_eq (o : Outline) : ∃ marked,
    o.document = String.ofList ((o.block o.rootIndent).followed 0 (Draft.ending marked)) ∧
      ∀ tag s, o = .scalar tag s → ScalarText.isPlain tag s = true → marked = true := by
  by_cases ho : ∃ tag s, o = .scalar tag s
  · obtain ⟨tag, s, rfl⟩ := ho
    refine ⟨_, congrArg String.ofList (followed_ending _ _), ?_⟩
    rintro _ _ ⟨⟩ hplain
    rw [hplain, Bool.or_true]
  · have hne : ∀ tag s, o ≠ .scalar tag s := fun tag s h => ho ⟨tag, s, h⟩
    have hroot : o.block 0 = o.block o.rootIndent := by
      rw [rootIndent]
      cases hb : o.isBlock
      · exact block_inline hb hne 0 2
      · rfl
    refine ⟨(o.block 0).isOpen, ?_, fun tag s h => absurd h (hne tag s)⟩
    rw [← hroot, ← followed_ending]
    cases o with
    | scalar tag s => exact absurd rfl (hne tag s)
    | sequence | mapping => rfl

end Outline

/-- A collection with lines of its own is prepared at the margin. -/
theorem exists_prepared_block {v : Value} (h : v.Faithful) {o : Outline} (ho : v.settled.outline? = some o)
    (hb : o.isBlock = true) (index : Nat) : ∃ o d spans, Prepared 0 index v o d spans := by
  cases h with
  | list h =>
    obtain ⟨os, ds, spans, hitems⟩ := exists_preparedItems 0 index fun v hv => exists_prepared (h v hv)
    exact ⟨_, _, _, hitems.sequence⟩
  | map hk h =>
    obtain ⟨os, ds, spans, hentries⟩ := exists_preparedEntries 0 index hk h fun p hp => exists_prepared (h p hp)
    exact ⟨_, _, _, hentries.mapping⟩
  | null | bool | int | float | text =>
    cases ho
    cases hb

theorem exists_prepared_root {v : Value} (h : v.Faithful) (index : Nat) :
    ∃ o d spans, Prepared d.rootIndent index v o d spans := by
  obtain ⟨o, d, spans, hinner⟩ := exists_prepared h 2 index (by decide)
  cases hb : o.isBlock with
  | false =>
    have hindent : d.rootIndent = 2 := by rw [Draft.rootIndent, hinner.isBlock, hb]; rfl
    exact ⟨o, d, spans, hindent ▸ hinner⟩
  | true =>
    obtain ⟨o', d', spans', houter⟩ := exists_prepared_block h hinner.outline hb index
    obtain rfl : o = o' := Option.some.inj (hinner.outline.symm.trans houter.outline)
    have hindent : d'.rootIndent = 0 := by rw [Draft.rootIndent, houter.isBlock, hb]; rfl
    exact ⟨o, d', spans', hindent ▸ houter⟩

/-- The document of a faithful value is read as that value. -/
theorem read_document {v : Value} {text : String} (h : v.Faithful) (htext : v.toYaml? = some text)
    (hlength : text.length ≤ mostMarks) : read text = .ok v.asRead := by
  obtain ⟨o, d, spans, hprepared⟩ := exists_prepared_root h 0
  obtain ⟨marked, hdocument, hmarked⟩ := o.document_eq
  have hindent : o.rootIndent = d.rootIndent := by rw [Outline.rootIndent, Draft.rootIndent, hprepared.isBlock]
  obtain rfl : text = o.document := by
    rw [Value.toYaml?, hprepared.outline] at htext
    exact (Option.some.inj htext).symm
  -- What is left of the text is that of the draft.
  have hending : ∀ c ∈ Draft.ending marked, c ≠ '$' := by
    cases marked <;> exact forall_mem_of_all (by decide)
  have hprotect : Protected.protectFrom 0 0 o.document.toList = (d.text marked, spans) := by
    have hrest := Protected.protectFrom_pass hending (0 + spans.length) []
    rw [List.append_nil] at hrest
    rw [hdocument, String.toList_ofList, hindent, hprepared.protects, hrest, Draft.text]
    simp [Protected.protectFrom]
  have hspans : spans.length ≤ mostMarks := by
    have hle := Protected.length_spans_le o.document.toList 0 0
    rw [hprotect] at hle
    exact Nat.le_trans hle hlength
  have hmark : d.NeedsMark → marked = true := by
    rintro ⟨cs, hd⟩
    obtain ⟨tag, s, ho, hstyle⟩ := hprepared.scalar _ _ hd
    refine hmarked tag s ho ?_
    rw [ScalarText.isPlain_styleOf, hstyle]
    rfl
  have hmeans := hprepared.means [] [] rfl
  rw [List.nil_append, List.append_nil] at hmeans
  obtain ⟨node, hnode, hvalue⟩ :=
    Node.documentValue_draft rfl (hprepared.valid (by rwa [Nat.zero_add])) hmark hmeans
  rw [read, Protected.protect, hprotect]
  simp only [String.toList_ofList, hnode, bind, Except.bind]
  exact hvalue

/-- A faithful value has a document, and with no more expressions than marks are counted it is loaded as
that value. -/
theorem load_toYaml {v : Value} (h : v.Faithful) :
    ∃ text, v.toYaml? = some text ∧ (text.length ≤ mostMarks → ∀ file, load text file = .ok v.asRead) := by
  obtain ⟨o, d, spans, hprepared⟩ := exists_prepared_root h 0
  have htext : v.toYaml? = some o.document := by rw [Value.toYaml?, hprepared.outline]; rfl
  refine ⟨_, htext, fun hlength file => ?_⟩
  rw [load, read_document h htext hlength]
  rfl

/-- A key and a text that the older schema takes for truth values, an expression behind a colon, numbers,
an empty collection and a text of two lines. -/
theorem load_toYaml_nested :
    load ("'on':\n  - 'yes'\n  - 'a: $\x7b\x7b b \x7d\x7d'\n  - -3\n  - 0.3333333333333333\n" ++
        "  - null\n  - []\ntext: |\n  x\n  y\n") none =
      .ok (.pairs [(.text "on", .list [.text "yes", .text "a: $\x7b\x7b b \x7d\x7d", .number (.int (-3)),
        .number (.float (.round false 1 3)), .null, .list []]), (.text "text", .text "x\ny\n")]) := by
  have inline {s : String} (hs : s ∈ ["on", "yes", "a: $\x7b\x7b b \x7d\x7d", "text"]) : Faithful s := by
    simp only [List.mem_cons, List.not_mem_nil, or_false] at hs
    rcases hs with rfl | rfl | rfl | rfl
    all_goals
      refine ⟨by decide +kernel, by decide +kernel, by decide +kernel, by decide +kernel, fun hs => ?_⟩
      exact absurd hs (by decide +kernel)
  have lines : Faithful "x\ny\n" := by
    refine ⟨by decide +kernel, by decide +kernel, by decide +kernel, by decide +kernel, ?_⟩
    rintro - _ ⟨body, rfl, -⟩ hi -
    have hmem : '$' ∈ "x\ny\n".toList := hi.subset (by simp [Protected.opening])
    exact absurd hmem (by decide)
  have items : Value.Faithful (.list [.text "yes", .text "a: $\x7b\x7b b \x7d\x7d", .number (.int (-3)),
      .number (.float (.round false 1 3)), .null, .list []]) := by
    refine .list ?_
    simp only [List.forall_mem_cons, List.not_mem_nil, IsEmpty.forall_iff, implies_true, and_true]
    exact ⟨.text (inline (by simp)), .text (inline (by simp)), .int _, .float (by decide +kernel), .null,
      .list (List.forall_mem_nil _)⟩
  have entries : Value.Faithful (.map [(.text "on", .list [.text "yes", .text "a: $\x7b\x7b b \x7d\x7d",
      .number (.int (-3)), .number (.float (.round false 1 3)), .null, .list []]),
      (.text "text", .text "x\ny\n")]) := by
    refine .map ?_ ?_
    · simp only [List.forall_mem_cons, List.not_mem_nil, IsEmpty.forall_iff, implies_true, and_true]
      exact ⟨⟨_, rfl, inline (by simp), by decide +kernel⟩, ⟨_, rfl, inline (by simp), by decide +kernel⟩⟩
    · simp only [List.forall_mem_cons, List.not_mem_nil, IsEmpty.forall_iff, implies_true, and_true]
      exact ⟨items, .text lines⟩
  obtain ⟨text, htext, hload⟩ := load_toYaml entries
  have hwritten : text = "'on':\n  - 'yes'\n  - 'a: $\x7b\x7b b \x7d\x7d'\n  - -3\n  - 0.3333333333333333\n" ++
      "  - null\n  - []\ntext: |\n  x\n  y\n" :=
    Option.some.inj (htext.symm.trans (by decide +kernel))
  rw [hwritten] at hload
  exact hload (by decide +kernel) none

end Yaml
end PipelineTemplate
