import PipelineTemplate.Proofs.Value.Json.Form
import PipelineTemplate.Proofs.Value.Json.Scalar

/-!
# JSON text read back

Whatever stands on the lines of a block, its parts are read in turn: blanks before a part are passed over,
and a comma or the closing bracket ends it. Compact and indented JSON text of a value without callables
are both read as its plain form.
-/

namespace PipelineTemplate.JsonText

/-- Blanks alone. -/
def Blank (cs : List Char) : Prop := ∀ c ∈ cs, isBlank c = true

theorem blank_nil : Blank [] := List.forall_mem_nil _

theorem afterBlanks_append {before : List Char} (h : Blank before) (cs : List Char) :
    afterBlanks (before ++ cs) = afterBlanks cs :=
  List.dropWhile_append_of_pos h

theorem value?_blanks {before : List Char} (h : Blank before) (bound : Nat) (cs : List Char) :
    value? bound (before ++ cs) = value? bound cs := by
  cases bound with
  | zero => rfl
  | succ bound => rw [value?, value?, afterBlanks_append h]

theorem after?_blanks {before : List Char} (h : Blank before) (char : Char) (cs : List Char) :
    after? char (before ++ cs) = after? char cs := by
  rw [after?, after?, afterBlanks_append h]

theorem after?_cons {c : Char} (hc : isBlank c = false) (char : Char) (cs : List Char) :
    after? char (c :: cs) = if char = c then some cs else none := by
  rw [after?, afterBlanks_cons hc]
  rfl

theorem after?_behind {before : List Char} (h : Blank before) {c : Char} (hc : isBlank c = false) (char : Char)
    (cs : List Char) : after? char (before ++ c :: cs) = if char = c then some cs else none := by
  rw [after?_blanks h, after?_cons hc]

/-- No value begins with a closing bracket. -/
theorem value?_closing {cs rest : List Char} (h : after? ']' cs = some rest) (bound : Nat) :
    value? bound cs = none := by
  cases bound with
  | zero => rfl
  | succ bound =>
    have hcs : afterBlanks cs = ']' :: rest := Text.dropPrefix?_eq_some.1 h
    rw [value?, hcs]
    rfl

theorem Ended.of_blank {before : List Char} (h : Blank before) {rest : List Char} (hr : Ended rest) :
    Ended (before ++ rest) := by
  cases before with
  | nil => exact hr
  | cons c before =>
    have hc := h c (List.mem_cons_self ..)
    simp only [isBlank, Bool.or_eq_true, decide_eq_true_iff] at hc
    rcases hc with ((rfl | rfl) | rfl) | rfl <;> rfl

/-! ## Blocks -/

/-- What stands before each part of a block. -/
def lead : Option Nat → List Char
  | none => []
  | some depth => '\n' :: List.replicate (depth + 2) ' '

/-- What stands before the closing bracket of a block. -/
def trail : Option Nat → List Char
  | none => []
  | some depth => '\n' :: List.replicate depth ' '

theorem blank_line (n : Nat) : Blank ('\n' :: List.replicate n ' ') := by
  refine List.forall_mem_cons.2 ⟨rfl, fun c hc => ?_⟩
  rw [List.eq_of_mem_replicate hc]
  rfl

theorem blank_lead (indent : Option Nat) : Blank (lead indent) := by
  cases indent with
  | none => exact blank_nil
  | some depth => exact blank_line _

theorem blank_trail (indent : Option Nat) : Blank (trail indent) := by
  cases indent with
  | none => exact blank_nil
  | some depth => exact blank_line _

/-- The parts of a block up to its end, each behind the same blanks. -/
def listing (lead closing : List Char) : List (List Char) → List Char
  | [] => closing
  | [part] => lead ++ (part ++ closing)
  | part :: next :: parts => lead ++ (part ++ ',' :: listing lead closing (next :: parts))

theorem listing_append (lead closing rest : List Char) (parts : List (List Char)) :
    listing lead closing parts ++ rest = listing lead (closing ++ rest) parts := by
  induction parts with
  | nil => rfl
  | cons part parts ih =>
    cases parts with
    | nil => simp [listing]
    | cons next parts => simp [listing, ih]

theorem listing_eq_intercalate (lead closing part : List Char) (parts : List (List Char)) :
    listing lead closing (part :: parts) = lead ++ ((',' :: lead).intercalate (part :: parts) ++ closing) := by
  induction parts generalizing part with
  | nil => simp [listing, List.intercalate]
  | cons next parts ih =>
    rw [listing, ih]
    simp [List.intercalate]

theorem jsonBlock_toList (opening closing : String) (indent : Option Nat) (part : String) (parts : List String) :
    (Value.jsonBlock opening closing indent (part :: parts)).toList = opening.toList ++
      listing (lead indent) (trail indent ++ closing.toList) ((part :: parts).map String.toList) := by
  rw [List.map_cons, listing_eq_intercalate, ← List.map_cons]
  cases indent with
  | none => simp [Value.jsonBlock, Text.join, lead, trail]
  | some depth => simp [Value.jsonBlock, Text.join, lead, trail]

/-! ## Values -/

/-- The JSON text of a value is read back as the value, wherever the text stands. -/
def Reads (v : Value) : Prop := ∀ indent s, Value.jsonText? indent v = some s → ∀ bound rest,
  2 * s.length ≤ bound → Ended rest → value? bound (s.toList ++ rest) = some (v, rest)

theorem jsonItems?_forall₂ {indent : Option Nat} {items : List Value} {parts : List String}
    (h : Value.jsonItems? indent items = some parts) :
    List.Forall₂ (fun v part => Value.jsonText? indent v = some part) items parts := by
  induction items generalizing parts with
  | nil =>
    cases h
    exact .nil
  | cons v vs ih =>
    obtain ⟨part, hpart, h⟩ := Option.bind_eq_some_iff.1 h
    obtain ⟨parts, hparts, h⟩ := Option.bind_eq_some_iff.1 h
    cases h
    exact .cons hpart (ih hparts)

theorem jsonEntries?_forall₂ {indent : Option Nat} {entries : Entries} {parts : List String}
    (h : Value.jsonEntries? indent entries = some parts) :
    List.Forall₂ (fun entry part => ∃ text, Value.jsonText? indent entry.2 = some text ∧
      part = Value.jsonString entry.1.toText ++ (if indent.isSome then ": " else ":") ++ text) entries parts := by
  induction entries generalizing parts with
  | nil =>
    cases h
    exact .nil
  | cons entry rest ih =>
    obtain ⟨text, htext, h⟩ := Option.bind_eq_some_iff.1 h
    obtain ⟨parts, hparts, h⟩ := Option.bind_eq_some_iff.1 h
    cases h
    exact .cons ⟨text, htext, rfl⟩ (ih hparts)

/-- One item and what follows it. -/
theorem items?_next {before : List Char} (hbefore : Blank before) {bound : Nat} {cs more rest : List Char}
    {v : Value} {items : List Value} (hv : value? bound cs = some (v, ',' :: more))
    (hmore : items? bound more = some (items, rest)) :
    items? (bound + 1) (before ++ cs) = some (v :: items, rest) := by
  have hcomma : after? ',' (',' :: more) = some more := after?_cons rfl _ _
  rw [items?, value?_blanks hbefore, hv]
  simp only [Option.bind_eq_bind, Option.bind_some, hcomma, hmore]
  rfl

/-- The last item. -/
theorem items?_last {before after : List Char} (hbefore : Blank before) (hafter : Blank after) {bound : Nat}
    {cs rest : List Char} {v : Value} (hv : value? bound cs = some (v, after ++ ']' :: rest)) :
    items? (bound + 1) (before ++ cs) = some ([v], rest) := by
  have hcomma : after? ',' (after ++ ']' :: rest) = none := after?_behind hafter rfl _ _
  have hclosing : after? ']' (after ++ ']' :: rest) = some rest := after?_behind hafter rfl _ _
  rw [items?, value?_blanks hbefore, hv]
  simp only [Option.bind_eq_bind, Option.bind_some, hcomma, hclosing]
  rfl

theorem ended_closing {after : List Char} (h : Blank after) (rest : List Char) :
    Ended (after ++ ']' :: rest) ∧ Ended (after ++ '\x7d' :: rest) :=
  ⟨.of_blank h rfl, .of_blank h rfl⟩

/-- The items of a block are read one after the other. -/
theorem items?_listing {indent : Option Nat} {before after : List Char} (hbefore : Blank before)
    (hafter : Blank after) {items : List Value} {parts : List String}
    (hparts : List.Forall₂ (fun v part => Value.jsonText? indent v = some part) items parts) (hne : items ≠ [])
    (hreads : ∀ v ∈ items, Reads v) {bound : Nat} (rest : List Char)
    (hbound : 2 * (listing before (after ++ [']']) (parts.map String.toList)).length ≤ bound) :
    items? bound (listing before (after ++ ']' :: rest) (parts.map String.toList)) = some (items, rest) := by
  induction hparts generalizing bound with
  | nil => exact absurd rfl hne
  | @cons v part vs parts hpart hrest ih =>
    obtain ⟨hv, hvs⟩ := List.forall_mem_cons.1 hreads
    cases hrest with
    | nil =>
      simp only [List.map_cons, List.map_nil, listing, List.length_append, List.length_singleton,
        String.length_toList] at hbound ⊢
      obtain ⟨bound, rfl⟩ : ∃ b, bound = b + 1 := ⟨bound - 1, by omega⟩
      exact items?_last hbefore hafter (hv indent part hpart bound _ (by omega) (ended_closing hafter rest).1)
    | @cons w next ws nexts hnext hrest =>
      simp only [List.map_cons, listing, List.length_append, List.length_cons, String.length_toList] at hbound ⊢
      obtain ⟨bound, rfl⟩ : ∃ b, bound = b + 1 := ⟨bound - 1, by omega⟩
      refine items?_next hbefore (hv indent part hpart bound _ (by omega) rfl) ?_
      exact ih (List.cons_ne_nil _ _) hvs (by simp only [List.map_cons]; omega)

/-- A key is read behind its quotation mark. -/
theorem after?_key {before : List Char} (hbefore : Blank before) (key : String) (cs : List Char) :
    after? '"' (before ++ ((Value.jsonString key).toList ++ cs)) =
      some (key.toList.flatMap Value.jsonChar ++ '"' :: cs) := by
  rw [jsonString_toList, List.cons_append, after?_behind hbefore rfl, if_pos rfl, List.append_assoc,
    List.singleton_append]

/-- One entry and what follows it. -/
theorem entries?_next {before gap : List Char} (hbefore : Blank before) (hgap : Blank gap) {bound : Nat}
    {cs more rest : List Char} (key : String) {v : Value} {entries : Entries}
    (hv : value? bound cs = some (v, ',' :: more)) (hmore : entries? bound more = some (entries, rest)) :
    entries? (bound + 1) (before ++ ((Value.jsonString key).toList ++ ':' :: (gap ++ cs))) =
      some ((.text key, v) :: entries, rest) := by
  have hcolon : after? ':' (':' :: (gap ++ cs)) = some (gap ++ cs) := after?_cons rfl _ _
  have hcomma : after? ',' (',' :: more) = some more := after?_cons rfl _ _
  rw [entries?, after?_key hbefore]
  simp only [Option.bind_eq_bind, Option.bind_some, text?_jsonString, hcolon, value?_blanks hgap, hv, hcomma, hmore]
  rfl

/-- The last entry. -/
theorem entries?_last {before gap after : List Char} (hbefore : Blank before) (hgap : Blank gap)
    (hafter : Blank after) {bound : Nat} {cs rest : List Char} (key : String) {v : Value}
    (hv : value? bound cs = some (v, after ++ '\x7d' :: rest)) :
    entries? (bound + 1) (before ++ ((Value.jsonString key).toList ++ ':' :: (gap ++ cs))) =
      some ([(.text key, v)], rest) := by
  have hcolon : after? ':' (':' :: (gap ++ cs)) = some (gap ++ cs) := after?_cons rfl _ _
  have hcomma : after? ',' (after ++ '\x7d' :: rest) = none := after?_behind hafter rfl _ _
  have hclosing : after? '\x7d' (after ++ '\x7d' :: rest) = some rest := after?_behind hafter rfl _ _
  rw [entries?, after?_key hbefore]
  simp only [Option.bind_eq_bind, Option.bind_some, text?_jsonString, hcolon, value?_blanks hgap, hv, hcomma,
    hclosing]
  rfl

/-- The entries of a block are read one after the other. -/
theorem entries?_listing {indent : Option Nat} {before after : List Char} (hbefore : Blank before)
    (hafter : Blank after) {entries : Entries} {parts : List String}
    (hparts : List.Forall₂ (fun entry part => ∃ text, Value.jsonText? indent entry.2 = some text ∧
      part = Value.jsonString entry.1.toText ++ (if indent.isSome then ": " else ":") ++ text) entries parts)
    (hne : entries ≠ []) (hkeys : ∀ entry ∈ entries, ∃ s, entry.1 = .text s)
    (hreads : ∀ entry ∈ entries, Reads entry.2) {bound : Nat} (rest : List Char)
    (hbound : 2 * (listing before (after ++ ['\x7d']) (parts.map String.toList)).length ≤ bound) :
    entries? bound (listing before (after ++ '\x7d' :: rest) (parts.map String.toList)) = some (entries, rest) := by
  have hpart (key text : String) : ∃ gap, Blank gap ∧
      (Value.jsonString key ++ (if indent.isSome then ": " else ":") ++ text).toList =
        (Value.jsonString key).toList ++ ':' :: (gap ++ text.toList) := by
    cases indent with
    | none => exact ⟨[], blank_nil, by simp⟩
    | some depth => exact ⟨[' '], List.forall_mem_singleton.2 rfl, by simp⟩
  induction hparts generalizing bound with
  | nil => exact absurd rfl hne
  | @cons entry part entries parts htext hrest ih =>
    obtain ⟨hv, hvs⟩ := List.forall_mem_cons.1 hreads
    obtain ⟨⟨key, hkey⟩, hkeys⟩ := List.forall_mem_cons.1 hkeys
    obtain ⟨text, htext, rfl⟩ := htext
    obtain ⟨k, v⟩ := entry
    obtain rfl : k = .text key := hkey
    obtain ⟨gap, hgap, hshape⟩ := hpart key text
    have hlength := congrArg List.length hshape
    simp only [Value.toText] at hbound ⊢
    simp only [List.length_append, List.length_cons, String.length_toList] at hlength
    cases hrest with
    | nil =>
      simp only [List.map_cons, List.map_nil, listing, List.length_append, List.length_singleton,
        String.length_toList] at hbound ⊢
      obtain ⟨bound, rfl⟩ : ∃ b, bound = b + 1 := ⟨bound - 1, by omega⟩
      rw [hshape, List.append_assoc, List.cons_append, List.append_assoc]
      exact entries?_last hbefore hgap hafter key
        (hv _ text htext bound _ (by omega) (ended_closing hafter rest).2)
    | @cons w next ws nexts hnext hrest =>
      simp only [List.map_cons, listing, List.length_append, List.length_cons, String.length_toList] at hbound ⊢
      obtain ⟨bound, rfl⟩ : ∃ b, bound = b + 1 := ⟨bound - 1, by omega⟩
      rw [hshape, List.append_assoc, List.cons_append, List.append_assoc]
      refine entries?_next hbefore hgap key (hv _ text htext bound _ (by omega) rfl) ?_
      exact ih (List.cons_ne_nil _ _) (List.forall_mem_of_forall_mem_cons hkeys) hvs
        (by simp only [List.map_cons]; omega)

/-! ## Whole values -/

/-- Where reading the parts succeeds, the closing bracket is not what comes next. -/
theorem after?_eq_none {α : Type} {closing : Char} {cs : List Char} {read : Option α} {parts : α}
    (h : read = some parts) (hclosing : ∀ rest, after? closing cs = some rest → read = none) :
    after? closing cs = none := by
  cases hafter : after? closing cs with
  | none => rfl
  | some rest =>
    rw [hclosing rest hafter] at h
    cases h

theorem items?_closing {cs rest : List Char} (h : after? ']' cs = some rest) (bound : Nat) :
    items? bound cs = none := by
  cases bound with
  | zero => rfl
  | succ bound =>
    rw [items?, value?_closing h]
    rfl

theorem value?_list {bound : Nat} {cs rest : List Char} {items : List Value}
    (h : items? bound cs = some (items, rest)) : value? (bound + 1) ('[' :: cs) = some (.list items, rest) := by
  have hopen : after? ']' cs = none := after?_eq_none h fun _ hclosing => items?_closing hclosing bound
  rw [value?, afterBlanks_cons (by decide)]
  simp only [hopen, h, Option.map_some]

theorem entries?_closing {cs rest : List Char} (h : after? '\x7d' cs = some rest) (bound : Nat) :
    entries? bound cs = none := by
  cases bound with
  | zero => rfl
  | succ bound =>
    have hcs : afterBlanks cs = '\x7d' :: rest := Text.dropPrefix?_eq_some.1 h
    rw [entries?, after?, hcs]
    rfl

theorem value?_map {bound : Nat} {cs rest : List Char} {entries : Entries}
    (h : entries? bound cs = some (entries, rest)) :
    value? (bound + 1) ('\x7b' :: cs) = some (.map (Entries.ofPairs entries), rest) := by
  have hopen : after? '\x7d' cs = none := after?_eq_none h fun _ hclosing => entries?_closing hclosing bound
  rw [value?, afterBlanks_cons (by decide)]
  simp only [hopen, h, Option.map_some]

theorem jsonBlock_nil_toList (opening closing : String) (indent : Option Nat) :
    (Value.jsonBlock opening closing indent []).toList = opening.toList ++ closing.toList :=
  String.toList_append

theorem value?_emptyBlock (opening closing : Char) {indent : Option Nat} {v : Value} {bound : Nat} {rest : List Char}
    (hread : ∀ bound, value? (bound + 1) (opening :: closing :: rest) = some (v, rest))
    {text : String} (htext : text = Value.jsonBlock (String.ofList [opening]) (String.ofList [closing]) indent [])
    (hbound : 2 * text.length ≤ bound) : value? bound (text.toList ++ rest) = some (v, rest) := by
  have htoList := congrArg String.toList htext
  rw [jsonBlock_nil_toList, String.toList_ofList, String.toList_ofList] at htoList
  rw [← String.length_toList, htoList] at hbound
  obtain ⟨bound, rfl⟩ := Nat.exists_eq_add_of_le' (Nat.le_trans (by decide : 1 ≤ 4) hbound)
  rw [htoList]
  exact hread bound

/-- A block is read where its parts are. -/
theorem value?_block (opening closing : Char) {indent : Option Nat} {part : String} {parts : List String} {v : Value}
    {bound : Nat} {rest : List Char}
    (hread : ∀ bound,
      2 * (listing (lead indent) (trail indent ++ [closing]) ((part :: parts).map String.toList)).length ≤ bound →
      value? (bound + 1) (opening ::
        listing (lead indent) (trail indent ++ closing :: rest) ((part :: parts).map String.toList)) = some (v, rest))
    {text : String} (htext : text = Value.jsonBlock (String.ofList [opening]) (String.ofList [closing]) indent
      (part :: parts)) (hbound : 2 * text.length ≤ bound) : value? bound (text.toList ++ rest) = some (v, rest) := by
  have htoList := congrArg String.toList htext
  rw [jsonBlock_toList, String.toList_ofList, String.toList_ofList, List.singleton_append] at htoList
  rw [← String.length_toList, htoList, List.length_cons] at hbound
  obtain ⟨bound, rfl⟩ : ∃ b, bound = b + 1 := ⟨bound - 1, by omega⟩
  rw [htoList, List.cons_append, listing_append, List.append_assoc, List.singleton_append]
  exact hread bound (by omega)

theorem reads_list {items : List Value} (h : ∀ v ∈ items, Reads v) : Reads (.list items) := by
  intro indent s hs bound rest hbound _
  rw [Value.jsonText?, Option.map_eq_some_iff] at hs
  obtain ⟨parts, hparts, rfl⟩ := hs
  cases jsonItems?_forall₂ hparts with
  | nil => exact value?_emptyBlock '[' ']' (fun _ => rfl) rfl hbound
  | @cons v part vs parts hpart hrest =>
    refine value?_block '[' ']' (fun bound hbound => ?_) rfl hbound
    exact value?_list (items?_listing (blank_lead _) (blank_trail _) (.cons hpart hrest) (List.cons_ne_nil _ _) h rest
      hbound)

theorem reads_map {entries : Entries} (hkeys : ∀ entry ∈ entries, ∃ s, entry.1 = .text s)
    (distinct : entries.Distinct) (h : ∀ entry ∈ entries, Reads entry.2) : Reads (.map entries) := by
  intro indent s hs bound rest hbound _
  rw [Value.jsonText?, Option.map_eq_some_iff] at hs
  obtain ⟨parts, hparts, rfl⟩ := hs
  cases jsonEntries?_forall₂ hparts with
  | nil => exact value?_emptyBlock '\x7b' '\x7d' (fun _ => rfl) rfl hbound
  | @cons entry part entries parts hpart hrest =>
    refine value?_block '\x7b' '\x7d' (fun bound hbound => ?_) rfl hbound
    have hread := entries?_listing (blank_lead indent) (blank_trail indent) (.cons hpart hrest) (List.cons_ne_nil _ _)
      hkeys h rest hbound
    rw [value?_map hread, Value.ofPairs_eq_settled, Entries.settled_of_distinct distinct]

/-- Values in JSON form are read back from their texts. -/
theorem reads {v : Value} (h : v.JsonForm) : Reads v := by
  have hscalar {v : Value} {text : String} (htext : ∀ indent, Value.jsonText? indent v = some text)
      (hread : ∀ bound rest, Ended rest → value? (bound + 1) (text.toList ++ rest) = some (v, rest)) : Reads v := by
    intro indent s hs bound rest hbound hr
    rw [htext indent] at hs
    obtain rfl : text = s := Option.some.inj hs
    have hne : text.length ≠ 0 := by
      intro hlength
      rw [String.length_eq_zero_iff] at hlength
      subst hlength
      -- No value is read from nothing.
      have hnothing := hread 0 [] rfl
      cases hnothing
    obtain ⟨bound, rfl⟩ : ∃ b, bound = b + 1 := ⟨bound - 1, by omega⟩
    exact hread bound rest hr
  induction h with
  | null => exact hscalar (fun _ => rfl) fun bound rest _ => value?_word (by simp) bound rest
  | bool b =>
    cases b with
    | true => exact hscalar (fun _ => rfl) fun bound rest _ => value?_word (by simp) bound rest
    | false => exact hscalar (fun _ => rfl) fun bound rest _ => value?_word (by simp) bound rest
  | int n => exact hscalar (fun _ => rfl) fun bound rest hr => value?_int n bound hr
  | float finite => exact hscalar (fun _ => rfl) fun bound rest hr => value?_float finite bound hr
  | text s => exact hscalar (fun _ => rfl) fun bound rest _ => value?_text s bound rest
  | list _ ih => exact reads_list ih
  | map keys distinct _ ih => exact reads_map keys distinct ih

/-- The JSON text of a value without callables, compact or indented, is read as the plain form of the value:
the same keys in the same order, the same whole numbers and the same doubles. The plain form is plain. -/
theorem json_faithful {v : Value} (h : v.Inert) :
    (∃ s, v.toJson? = some s ∧ read? s = some v.toPlain) ∧
      (∃ s, v.toIndentedJson? = some s ∧ read? s = some v.toPlain) ∧ v.toPlain.toPlain = v.toPlain := by
  have hread {indent : Option Nat} {s : String} (hs : Value.jsonText? indent v.toPlain = some s) :
      read? s = some v.toPlain := by
    have hvalue := reads h.jsonForm indent s hs (2 * s.length + 2) [] (by omega) rfl
    rw [List.append_nil] at hvalue
    rw [read?, hvalue]
    rfl
  obtain ⟨compact, hcompact⟩ := Option.isSome_iff_exists.1 (h.hasJson none)
  obtain ⟨indented, hindented⟩ := Option.isSome_iff_exists.1 (h.hasJson (some 0))
  exact ⟨⟨compact, hcompact, hread hcompact⟩, ⟨indented, hindented, hread hindented⟩, h.jsonForm.toPlain_eq⟩

/-- Keys that become one text, an undefined entry and an infinite number are gone when the text is read. -/
theorem json_faithful_mixed :
    let v : Value := .pairs [(.text "a", .int 1), (.int 1, .list [.undefined, .tuple [.number (.float (.infinite true))]]),
      (.text "gone", .undefined), (.text "b", .reference (.text "t\n\"é") .undefined), (.text "1", .pairs []),
      (.text "a", .int (-70))]
    let plain : Value := .map [(.text "a", .int (-70)), (.text "1", .map []),
      (.text "b", .map [(.text "template", .text "t\n\"é")])]
    v.Inert ∧ v.toPlain = plain ∧
      v.toJson? = some "\x7b\"a\":-70,\"1\":\x7b\x7d,\"b\":\x7b\"template\":\"t\\n\\\"é\"\x7d\x7d" ∧
      (∃ s, v.toIndentedJson? = some s ∧ read? s = some plain) := by
  intro v plain
  have htuple : (Value.tuple [.number (.float (.infinite true))]).Inert :=
    .intro nofun (List.forall_mem_singleton.2 (.number _))
  have hreference : (Value.reference (.text "t\n\"é") .undefined).Inert :=
    .intro nofun (List.forall_mem_cons.2 ⟨.text _, List.forall_mem_singleton.2 .undefined⟩)
  have hempty : (Value.pairs []).Inert := .intro nofun nofun
  have hlist : (Value.list [.undefined, .tuple [.number (.float (.infinite true))]]).Inert :=
    .list (List.forall_mem_cons.2 ⟨.undefined, List.forall_mem_singleton.2 htuple⟩)
  have hv : v.Inert := by
    refine .intro nofun ?_
    simp only [v, Value.held, List.map_cons, List.map_nil, List.forall_mem_cons]
    exact ⟨.number _, hlist, .undefined, hreference, hempty, .number _, List.forall_mem_nil _⟩
  have hplain : v.toPlain = plain := by
    simp only [v, plain]
    cbv
  have hcompact : v.toJson? =
      some "\x7b\"a\":-70,\"1\":\x7b\x7d,\"b\":\x7b\"template\":\"t\\n\\\"é\"\x7d\x7d" := by
    simp only [v]
    decide +kernel
  exact ⟨hv, hplain, hcompact, hplain ▸ (json_faithful hv).2.1⟩

end PipelineTemplate.JsonText
