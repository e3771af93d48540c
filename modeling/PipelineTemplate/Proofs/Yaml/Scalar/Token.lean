import PipelineTemplate.Proofs.Yaml.Indicator

/-!
# Scalars as tokens

A scalar in any style is one token, whose text is the one that it was written from. Behind it comes the
first token of the next line, or on the same line the colon that makes it a key.
-/

namespace PipelineTemplate.Yaml

/-! ## Written scalars -/

/-- A plain scalar that nothing at its beginning would be mistaken for. -/
structure IsPlain (cs : List Char) : Prop where
  text : IsPlainText cs
  start : ∀ c rest, cs = c :: rest → c ∉ "#,[]\x7b\x7d&*!|>'\"%@`".toList ∧
    (c = '?' ∨ c = ':' ∨ c = '-' → ∃ d more, rest = d :: more ∧ d ≠ ' ')
  noMark : ['-', '-', '-'].isPrefixOf cs = false ∧ ['.', '.', '.'].isPrefixOf cs = false

/-- Behind a question mark, a colon or a hyphen at its beginning a plain scalar goes on. -/
theorem IsPlain.second {c : Char} {cs : List Char} (h : IsPlain (c :: cs)) (hc : c = '?' ∨ c = ':' ∨ c = '-')
    (tail : List Char) : endsWord (cs ++ tail).head? = false := by
  obtain ⟨d, more, rfl, hd⟩ := (h.start c cs rfl).2 hc
  have hs := h.text.straight d (by simp)
  exact Cursor.endsWord_eq_false hs.1 hs.2 hd

theorem IsPlain.notIndicator {c : Char} {cs : List Char} (h : IsPlain (c :: cs))
    (hc : ¬ (c = '?' ∨ c = ':' ∨ c = '-')) :
    Reader.isIndicator c = false := by
  rw [Reader.isIndicator, decide_eq_false_iff_not]
  intro hm
  have hall : ∀ x ∈ "-?:,[]\x7b\x7d#&*!|>'\"%@`".toList,
      x ∈ "#,[]\x7b\x7d&*!|>'\"%@`".toList ∨ x = '?' ∨ x = ':' ∨ x = '-' := forall_mem_of_all (by decide)
  rcases hall c hm with hx | hx
  · exact (h.start c cs rfl).1 hx
  · exact hc hx

/-- A text as it is written in a style inside of a collection whose content is indented. -/
def writtenIn (indent : Nat) (cs : List Char) : Style → Written
  | .plain => ⟨cs, false, false⟩
  | .single => ScalarText.single indent cs
  | .double => ScalarText.double cs
  | .literal | .folded => ScalarText.literal indent cs

/-- Whether a text can be written in a style so that it is read back. -/
def Fits (cs : List Char) : Style → Prop
  | .plain => IsPlain cs
  | .single => IsSingleText cs
  | .double => True
  | .literal => IsBlockText cs ∧ cs ≠ []
  | .folded => False

namespace Cursor

theorem line_le_next (c : Cursor) : c.line ≤ c.next.line := by
  unfold next
  split
  · exact Nat.le_refl _
  · split
    · exact Nat.le_succ _
    · exact Nat.le_refl _

theorem line_le_advance (c : Cursor) (n : Nat) : c.line ≤ (c.advance n).line := by
  induction n generalizing c with
  | zero => exact Nat.le_refl _
  | succ n ih => exact Nat.le_trans c.line_le_next (ih c.next)

end Cursor

namespace Reader

variable {a : Reader} {rest : List Char} {n : Nat} {i : Int} {is : List Int} {toks : List Token} {ka : Bool}

/-- What a reader keeps that has read a token: everything but where it stands. -/
structure Took (a s : Reader) (token : Token) : Prop where
  blocks : s.indent :: s.outer = a.indent :: a.outer
  read : s.tokens.map Lexeme.token = token :: a.tokens.map Lexeme.token
  outside : s.depth = a.depth
  running : s.ended = a.ended
  loose : s.Loose a.cursor.line

theorem Took.stands {s : Reader} {token : Token} {text : List Char} (h : Took a s token)
    (ha : Stands a text n (i :: is) toks ka) (rest : List Char) (index line k : Nat) (key : Bool) :
    Stands { s with candidates := [], cursor := ⟨rest, index, line, k⟩, keyAllowed := key } rest k (i :: is)
      (token :: toks) key := by
  constructor
  · rfl
  · rfl
  · exact h.blocks.trans ha.blocks
  · exact h.read.trans (by rw [ha.read])
  · exact h.outside.trans ha.outside
  · rfl
  · rfl
  · exact h.running.trans ha.running
  · exact ha.document

/-- The candidate that is saved inside of a collection need not become a key. -/
theorem saveCandidate_loose {text : List Char} (h : Stands a text n (i :: is) toks ka) (hi : i < n) :
    ∃ s, a.saveCandidate = .ok s ∧ s.cursor = a.cursor ∧ s.tokens = a.tokens ∧
      s.indent = a.indent ∧ s.outer = a.outer ∧ s.depth = a.depth ∧ s.ended = a.ended ∧
      s.Loose a.cursor.line := by
  have hindent : a.indent = i := (List.cons.inj h.blocks).1
  have hcolumn : (a.indent == (a.cursor.column : Int)) = false := by
    rw [hindent, h.place, beq_eq_false_iff_ne]
    omega
  rw [saveCandidate]
  by_cases hk : a.keyAllowed = true
  · rw [if_pos hk]
    simp only [dropCandidate, h.noCandidates, List.lookup_nil, Option.any_none, Bool.false_eq_true,
      if_false, List.filter_nil, bind, Except.bind, pure, Except.pure, hcolumn, Bool.and_false]
    refine ⟨_, rfl, rfl, rfl, rfl, rfl, rfl, rfl, ?_⟩
    intro p hp
    rw [List.mem_singleton.1 hp]
    exact ⟨rfl, Nat.le_refl _⟩
  · rw [if_neg hk]
    exact ⟨a, rfl, rfl, rfl, rfl, rfl, rfl, rfl, Loose.of_nil h.noCandidates _⟩

theorem putContent_took {text : List Char} (h : Stands a text n (i :: is) toks ka) (hi : i < n)
    {read : Cursor → Except Fault (Token × Cursor)} {token : Token} {d : Cursor}
    (hread : read a.cursor = .ok (token, d)) :
    ∃ s, a.putContent read = .ok s ∧ s.cursor = d ∧ Took a s token := by
  obtain ⟨s, hs, hcursor, htokens, hindent, houter, hdepth, hended, hloose⟩ := saveCandidate_loose h hi
  rw [putContent, hs]
  simp only [bind, Except.bind, hcursor, hread, pure, Except.pure]
  refine ⟨_, rfl, rfl, ?_⟩
  constructor
  · simp [put, hindent, houter]
  · simp [put, htokens]
  · exact hdepth
  · exact hended
  · exact hloose

theorem inFlow_eq {text : List Char} (h : Stands a text n (i :: is) toks ka) : a.inFlow = false := by
  simp [inFlow, h.outside]

/-! ## Scalars in quotes -/

theorem readToken_single {text : List Char} (h : Stands a ('\'' :: text) n (i :: is) toks ka) :
    a.readToken = a.putContent fun c => do
      let (s, d) ← c.quotedScalar false
      return (scalarToken .single s, d) := by
  simp [readToken, peek_eq h.text, isAt_eq h.text]

theorem readToken_double {text : List Char} (h : Stands a ('"' :: text) n (i :: is) toks ka) :
    a.readToken = a.putContent fun c => do
      let (s, d) ← c.quotedScalar true
      return (scalarToken .double s, d) := by
  simp [readToken, peek_eq h.text, isAt_eq h.text]

theorem readToken_quoted {double : Bool} {text : List Char} (h : Stands a (Cursor.quoteMark double :: text) n (i :: is) toks ka) :
    a.readToken = a.putContent fun c => do
      let (s, d) ← c.quotedScalar double
      return (scalarToken (Cursor.quoteStyle double) s, d) := by
  cases double with
  | false => exact readToken_single h
  | true => exact readToken_double h

theorem readToken_literal {text : List Char} (h : Stands a ('|' :: text) n (i :: is) toks ka) :
    a.readToken = a.putBlockScalar false := by
  simp [readToken, peek_eq h.text, isAt_eq h.text, inFlow_eq h]

/-! ## Plain scalars -/

theorem not_mark_append {x : Char} {cs tail : List Char} (h : [x, x, x].isPrefixOf cs = false)
    (ht : tail.head? ≠ some x) : [x, x, x].isPrefixOf (cs ++ tail) = false := by
  have htail : ∀ y more, tail = y :: more → (x == y) = false := by
    rintro y more rfl
    rw [beq_eq_false_iff_ne]
    rintro rfl
    exact ht rfl
  match cs with
  | [] => cases tail with
    | nil => rfl
    | cons y more => simp [List.isPrefixOf, htail y more rfl]
  | [c] => cases tail with
    | nil => simp [List.isPrefixOf]
    | cons y more => simp [List.isPrefixOf, htail y more rfl]
  | [c, d] => cases tail with
    | nil => simp [List.isPrefixOf]
    | cons y more => simp [List.isPrefixOf, htail y more rfl]
  | c :: d :: e :: more => simpa [List.isPrefixOf] using h

theorem readToken_plain {cs tail : List Char} (hcs : IsPlain cs)
    (ht : tail.head? ≠ some '-' ∧ tail.head? ≠ some '.')
    (h : Stands a (cs ++ tail) n (i :: is) toks ka) : a.readToken = a.putPlain := by
  obtain ⟨c, rest, rfl, hspace, hhash⟩ := hcs.text.first
  have htext : a.cursor.rest = c :: (rest ++ tail) := h.text
  have hmark : a.cursor.atDocumentMark = false := by
    rw [Cursor.atDocumentMark, h.text, not_mark_append hcs.noMark.1 ht.1, not_mark_append hcs.noMark.2 ht.2]
    rfl
  have hone : a.cursor.peekAt 1 = (rest ++ tail).head? := by
    rw [Cursor.peekAt, htext]
    cases rest ++ tail <;> rfl
  have hne {x : Char} (hx : x ∈ "#,[]\x7b\x7d&*!|>'\"%@`".toList) : c ≠ x := by
    rintro rfl
    exact (hcs.start c rest rfl).1 hx
  have hword : c = '?' ∨ c = ':' ∨ c = '-' → endsWord (a.cursor.peekAt 1) = false := by
    intro hc
    rw [hone]
    exact hcs.second hc tail
  have hs := hcs.text.straight c (by simp)
  have hends : endsWord (some c) = false := Cursor.endsWord_eq_false hs.1 hs.2 hspace
  have hbegins : a.beginsPlain = true := by
    rw [beginsPlain, peek_eq htext]
    simp only [hends, inFlow_eq h, Bool.not_false, Bool.true_and]
    by_cases hc : c = '?' ∨ c = ':' ∨ c = '-'
    · rw [hword hc]
      rcases hc with rfl | rfl | rfl <;> decide
    · rw [hcs.notIndicator hc]
      rfl
  have hmay {x : Char} (hx : x = '?' ∨ x = ':' ∨ x = '-') : (c = x && endsWord (a.cursor.peekAt 1)) = false := by
    by_cases hc : c = x
    · rw [hword (hc ▸ hx), Bool.and_false]
    · simp [hc]
  rw [readToken, peek_eq htext]
  simp only [hmark, Bool.and_false, Bool.false_eq_true, if_false, inFlow_eq h, Bool.false_or,
    hmay (.inr (.inr rfl)), hmay (.inl rfl), hmay (.inr (.inl rfl)), hne (x := '%') (by decide), hne (x := '[') (by decide),
    hne (x := '\x7b') (by decide), hne (x := ']') (by decide), hne (x := '\x7d') (by decide),
    hne (x := ',') (by decide), hne (x := '*') (by decide), hne (x := '&') (by decide),
    hne (x := '!') (by decide), hne (x := '|') (by decide), hne (x := '>') (by decide),
    hne (x := '\'') (by decide), hne (x := '"') (by decide), decide_false, Bool.false_and, hbegins, if_true]

/-! ## A scalar at the end of a line -/

theorem lineTail_false (k : Nat) (rest : List Char) :
    Cursor.lineTail false k rest = '\n' :: (List.replicate k ' ' ++ rest) := rfl

/-- A scalar in quotes and the line that it ends. -/
theorem moves_quoted {double : Bool} {style : Style} {body cs : List Char} {k : Nat}
    (hread : a.readToken = a.putContent fun c => do
      let (s, d) ← c.quotedScalar double
      return (scalarToken style s, d))
    (h : Stands a (Cursor.quoteMark double :: (body ++ Cursor.quoteMark double :: Cursor.lineTail false k rest))
      n (i :: is) toks ka)
    (hbody : ∀ c : Cursor,
      c.rest = body ++ Cursor.quoteMark double :: Cursor.lineTail false k rest →
        c.quotedRest double = .ok (cs, c.advance (body.length + 1)))
    (hi : i < n) (hrest : Begins rest) :
    ∃ b, Moves a b ∧ Stands b rest k (openAt k (i :: is))
      (blockEnds k (i :: is) ++ scalarToken style cs :: toks) true := by
  have hnext : a.cursor.next.rest = body ++ Cursor.quoteMark double :: Cursor.lineTail false k rest := by
    rw [Cursor.next_rest, h.text]
    rfl
  have hcontent : a.cursor.quotedScalar double = .ok (cs, a.cursor.next.advance (body.length + 1)) := by
    rw [Cursor.quotedScalar, hbody _ hnext]
  obtain ⟨s, hs, hcursor, htook⟩ := @putContent_took _ _ _ _ _ _ _ h hi
    (fun c => do
      let (s, d) ← c.quotedScalar double
      return (scalarToken style s, d)) (scalarToken style cs)
    (a.cursor.next.advance (body.length + 1)) (by
      simp only [hcontent, bind, Except.bind, pure, Except.pure])
  have htail : s.cursor.rest = '\n' :: (List.replicate k ' ' ++ rest) := by
    have := @Cursor.advance_rest_append a.cursor.next (body ++ [Cursor.quoteMark double])
      (Cursor.lineTail false k rest) (by rw [hnext]; simp)
    rw [List.length_append, List.length_singleton] at this
    rw [hcursor, this, lineTail_false]
  have hline : a.cursor.line ≤ s.cursor.line := by
    rw [hcursor]
    exact Nat.le_trans a.cursor.line_le_next (Cursor.line_le_advance _ _)
  have hlt : s.cursor.rest.length < a.cursor.rest.length := by
    rw [htail, h.text, lineTail_false]
    simp only [List.length_cons, List.length_append]
    omega
  exact moves_newline (hread.trans hs) (Cursor.eq_of_rest htail) hrest htook.loose hline
    (htook.stands h _ _ _ _ _) hlt

/-- A literal block; the next token is reached with the end of its last line. -/
theorem moves_literal {m k : Nat} {cs : List Char} (hcs : IsBlockText cs) (hne : cs ≠ [])
    (h : Stands a ((ScalarText.literal m cs).text ++ Cursor.lineTail (ScalarText.literal m cs).endsLine k rest)
      n (i :: is) toks ka)
    (hm : m = max (i + 1).toNat 1 + 1) (hk : k < m) (hrest : Begins rest) :
    ∃ b, Moves a b ∧ Stands b rest k (openAt k (i :: is))
      (blockEnds k (i :: is) ++ scalarToken .literal cs :: toks) true := by
  have hindent : a.indent = i := (List.cons.inj h.blocks).1
  obtain ⟨i', l', hl, hblock⟩ := Cursor.blockScalar_literal hk hrest (hindent ▸ hm) hcs hne
    a.cursor.index a.cursor.line a.cursor.column
  rw [← Cursor.eq_of_rest h.text] at hblock
  have hput : a.putBlockScalar false = .ok { a with
      cursor := ⟨rest, i', l', k⟩
      tokens := ⟨scalarToken .literal cs, a.cursor.line⟩ :: a.tokens
      keyAllowed := true
      candidates := [] } := by
    simp [putBlockScalar, dropCandidate, h.noCandidates, hblock, bind, Except.bind, pure, Except.pure, put]
  have htext : (ScalarText.literal m cs).text = '|' :: ((ScalarText.literal m cs).text).tail := by
    simp [ScalarText.literal]
  have hread : a.readToken = a.putBlockScalar false := by
    rw [htext] at h
    exact readToken_literal h
  have hlt : rest.length < a.cursor.rest.length := by
    rw [h.text, htext, Cursor.lineTail]
    simp only [List.length_append, List.length_cons]
    omega
  refine moves_passed (hread.trans hput) rfl hrest (Loose.of_nil rfl _) hl ?_ hlt
  exact ⟨rfl, rfl, h.blocks, by simp [h.read], h.outside, rfl, rfl, h.running, h.document⟩

/-- A plain scalar, read up to where it stops. -/
theorem putPlain_took {cs tail : List Char} (hcs : IsPlain cs)
    (h : Stands a (cs ++ tail) n (i :: is) toks ka) (hi : i < n) (hstop : StopsWord tail)
    {last : List Char} {crossed : Bool} {after : Nat → Nat → Cursor}
    (hgap : ∀ index column, Cursor.plainGap ⟨tail, index, a.cursor.line, column⟩ =
      (last, crossed, after index column))
    (hend : ∀ index column, last = [] ∨ ((after index column).column : Int) < i + 1) :
    ∃ s, a.putPlain = .ok s ∧
      s.cursor = after (a.cursor.index + cs.length) (a.cursor.column + cs.length) ∧
      s.keyAllowed = crossed ∧ Took a s (scalarToken .plain cs) := by
  have hindent : a.indent = i := (List.cons.inj h.blocks).1
  have hcolumn : i + 1 ≤ (a.cursor.column : Int) + 1 := by
    rw [h.place]
    omega
  obtain ⟨s, hs, hcursor, htokens, hsindent, houter, hdepth, hended, hloose⟩ := saveCandidate_loose h hi
  have hflow : s.inFlow = false := by simp [inFlow, hdepth, h.outside]
  have hscalar : s.cursor.plainScalar s.inFlow (s.indent + 1) [] false = (cs, crossed,
      after (a.cursor.index + cs.length) (a.cursor.column + cs.length)) := by
    rw [hflow, hsindent, hindent, hcursor]
    have := Cursor.plainScalar_text hcs.text hstop hgap hend [] false a.cursor.index a.cursor.column hcolumn
    rw [← Cursor.eq_of_rest h.text] at this
    exact this
  rw [putPlain, hs]
  simp only [bind, Except.bind, pure, Except.pure, hscalar]
  refine ⟨_, rfl, rfl, rfl, ?_⟩
  constructor
  · simp [put, hsindent, houter]
  · simp [put, htokens]
  · exact hdepth
  · exact hended
  · exact hloose

/-- A plain scalar at the end of a line. The next line does not go on with it, since it begins at the
column of a collection around the scalar or with the mark of the end of the document. -/
theorem moves_plain {k : Nat} {cs : List Char} (hcs : IsPlain cs)
    (h : Stands a (cs ++ Cursor.lineTail false k rest) n (i :: is) toks ka) (hi : i < n)
    (hrest : Begins rest)
    (hnext : (k : Int) ≤ i ∨ (k = 0 ∧ Cursor.atDocumentMark ⟨rest, 0, 0, 0⟩ = true)) :
    ∃ b, Moves a b ∧ Stands b rest k (openAt k (i :: is))
      (blockEnds k (i :: is) ++ scalarToken .plain cs :: toks) true := by
  obtain ⟨mark, hmark⟩ : ∃ mark, mark = Cursor.atDocumentMark ⟨List.replicate k ' ' ++ rest, 0, 0, 0⟩ :=
    ⟨_, rfl⟩
  have hgap (index column : Nat) : Cursor.plainGap ⟨Cursor.lineTail false k rest, index, a.cursor.line, column⟩ =
      (if mark then [] else [' '], true, ⟨rest, index + 1 + k, a.cursor.line + 1, k⟩) := by
    rw [lineTail_false, Cursor.plainGap_newline hrest, hmark]
    rfl
  have hend (index column : Nat) : (if mark then [] else [' ']) = [] ∨ (k : Int) < i + 1 := by
    rcases hnext with hk | ⟨rfl, hdoc⟩
    · exact Or.inr (by omega)
    · rw [hmark, List.replicate_zero, List.nil_append, hdoc]
      exact Or.inl rfl
  have hread := @readToken_plain _ _ _ _ _ _ _ (Cursor.lineTail false k rest) hcs
    ⟨by simp [lineTail_false], by simp [lineTail_false]⟩ h
  obtain ⟨s, hs, hcursor, hkey, htook⟩ := putPlain_took hcs h hi (Or.inl (by decide)) hgap hend
  have hlt : rest.length < a.cursor.rest.length := by
    rw [h.text, lineTail_false]
    simp only [List.length_append, List.length_cons]
    omega
  have hstands := htook.stands h rest s.cursor.index s.cursor.line k true
  refine moves_passed (hread.trans hs) hcursor hrest htook.loose (Nat.lt_succ_self _) ?_ hlt
  exact ⟨by rw [hcursor], by rw [hcursor], hstands.blocks, hstands.read, hstands.outside, hkey, rfl,
    hstands.running, hstands.document⟩

/-- A scalar in any style, and the line that it ends. -/
theorem moves_scalar {style : Style} {m k : Nat} {cs : List Char} (hcs : Fits cs style)
    (h : Stands a ((writtenIn m cs style).text ++ Cursor.lineTail (writtenIn m cs style).endsLine k rest)
      n (i :: is) toks ka)
    (hi : i < n) (hm : m = max (i + 1).toNat 1 + 1) (hk : k < m) (hrest : Begins rest)
    (hnext : style = .plain → (k : Int) ≤ i ∨ (k = 0 ∧ Cursor.atDocumentMark ⟨rest, 0, 0, 0⟩ = true)) :
    ∃ b, Moves a b ∧ Stands b rest k (openAt k (i :: is))
      (blockEnds k (i :: is) ++ scalarToken style cs :: toks) true := by
  cases style with
  | plain => exact moves_plain hcs h hi hrest (hnext rfl)
  | single =>
    have htext : (writtenIn m cs .single).text ++ Cursor.lineTail false k rest =
        '\'' :: (ScalarText.singleBody m cs ++ '\'' :: Cursor.lineTail false k rest) := by
      simp [writtenIn, ScalarText.single]
    have h' := htext ▸ h
    refine moves_quoted (readToken_single h') h' (fun c hc => ?_) hi hrest
    exact Cursor.quotedRest_single (by omega) hcs (by simp [lineTail_false]) _ hc
  | double =>
    have htext : (writtenIn m cs .double).text ++ Cursor.lineTail false k rest =
        '"' :: (cs.flatMap ScalarText.escaped ++ '"' :: Cursor.lineTail false k rest) := by
      simp [writtenIn, ScalarText.double]
    have h' := htext ▸ h
    exact moves_quoted (readToken_double h') h' (Cursor.quotedRest_double _ _) hi hrest
  | literal => exact moves_literal hcs.1 hcs.2 h hm hk hrest
  | folded => exact hcs.elim

/-! ## A scalar before a colon -/

/-- The candidate for a key that begins where the reader stands. -/
def candidate (a : Reader) : Int × Candidate :=
  (0, ⟨a.tokens.length, a.indent == (a.cursor.column : Int), a.cursor⟩)

/-- The reader behind a scalar that may be a key. -/
def behindKey (a : Reader) (w rest : List Char) (token : Token) : Reader :=
  { a with
    cursor := ⟨rest, a.cursor.index + w.length, a.cursor.line, a.cursor.column + w.length⟩
    tokens := ⟨token, a.cursor.line⟩ :: a.tokens
    keyAllowed := false
    candidates := [a.candidate] }

theorem saveCandidate_key {text : List Char} (h : Stands a text n (i :: is) toks true) :
    a.saveCandidate = .ok { a with candidates := [a.candidate] } := by
  rw [saveCandidate, if_pos h.mayBegin]
  simp [dropCandidate, h.noCandidates, bind, Except.bind, pure, Except.pure, inFlow, h.outside, candidate]

theorem readToken_key_quoted {double : Bool} {style : Style} {body cs after : List Char}
    (hread : a.readToken = a.putContent fun c => do
      let (s, d) ← c.quotedScalar double
      return (scalarToken style s, d))
    (h : Stands a (Cursor.quoteMark double :: body ++ [Cursor.quoteMark double] ++ after) n (i :: is) toks true)
    (hbody : ∀ c : Cursor, c.rest = body ++ Cursor.quoteMark double :: after →
      c.quotedRest double = .ok (cs, c.advance (body.length + 1)))
    (hw : (Cursor.quoteMark double :: body ++ [Cursor.quoteMark double]).all isStraight = true) :
    a.readToken = .ok (a.behindKey (Cursor.quoteMark double :: body ++ [Cursor.quoteMark double]) after
      (scalarToken style cs)) := by
  have hnext : a.cursor.next.rest = body ++ Cursor.quoteMark double :: after := by
    rw [Cursor.next_rest, h.text]
    simp
  have hlength : (Cursor.quoteMark double :: body ++ [Cursor.quoteMark double]).length = body.length + 1 + 1 := by
    simp
  have hpast : a.cursor.next.advance (body.length + 1) =
      ⟨after, a.cursor.index + (body.length + 1 + 1), a.cursor.line, a.cursor.column + (body.length + 1 + 1)⟩ := by
    have hadvance := Cursor.advance_straight hw after a.cursor.index a.cursor.line a.cursor.column
    rw [← Cursor.eq_of_rest h.text, hlength] at hadvance
    exact hadvance
  rw [hread, putContent, saveCandidate_key h]
  simp only [bind, Except.bind, Cursor.quotedScalar, hbody _ hnext, pure, Except.pure, put, behindKey, hpast,
    hlength]

theorem readToken_key_plain {cs after : List Char} (hcs : IsPlain cs)
    (h : Stands a (cs ++ ':' :: after) n (i :: is) toks true) (hi : i ≤ n)
    (hafter : endsWord after.head? = true) :
    a.readToken = .ok (a.behindKey cs (':' :: after) (scalarToken .plain cs)) := by
  have hindent : a.indent = i := (List.cons.inj h.blocks).1
  have hcolumn : a.indent + 1 ≤ (a.cursor.column : Int) + 1 := by
    rw [h.place, hindent]
    omega
  have hgap (index column : Nat) : Cursor.plainGap ⟨':' :: after, index, a.cursor.line, column⟩ =
      ([], false, ⟨':' :: after, index, a.cursor.line, column⟩) :=
    Cursor.plainGap_spaces (by decide) (by decide) 0 index a.cursor.line column
  have hstop : StopsWord (':' :: after) := Or.inr ⟨rfl, hafter⟩
  have hscalar := Cursor.plainScalar_text hcs.text hstop hgap (fun _ _ => Or.inl rfl) [] false
    a.cursor.index a.cursor.column hcolumn
  rw [← Cursor.eq_of_rest h.text] at hscalar
  rw [readToken_plain hcs (by simp) h, putPlain, saveCandidate_key h]
  simp only [bind, Except.bind, pure, Except.pure, inFlow, h.outside, bne_self_eq_false, put, behindKey]
  rw [hscalar]
  rfl

/-- A scalar on one line in front of a colon. -/
theorem readToken_key {style : Style} {m : Nat} (hm : 0 < m) {cs after : List Char} (hcs : Fits cs style)
    (hstyle : style ≠ .literal)
    (h : Stands a ((writtenIn m cs style).text ++ ':' :: after) n (i :: is) toks true) (hi : i ≤ n)
    (hafter : endsWord after.head? = true) (hw : (writtenIn m cs style).text.all isStraight = true) :
    a.readToken =
      .ok (a.behindKey (writtenIn m cs style).text (':' :: after) (scalarToken style cs)) := by
  cases style with
  | plain => exact readToken_key_plain hcs h hi hafter
  | single =>
    have h' : Stands a ('\'' :: (ScalarText.singleBody m cs ++ ['\''] ++ ':' :: after)) n (i :: is) toks true := h
    exact readToken_key_quoted (readToken_single h') h
      (Cursor.quotedRest_single hm hcs (by simp)) hw
  | double =>
    have h' : Stands a ('"' :: (cs.flatMap ScalarText.escaped ++ ['"'] ++ ':' :: after)) n (i :: is) toks true := h
    exact readToken_key_quoted (readToken_double h') h (Cursor.quotedRest_double _ _) hw
  | literal => exact absurd rfl hstyle
  | folded => exact hcs.elim

/-- Behind a scalar on one line the reader stands at the colon, and the scalar may still become a key. -/
theorem moves_behindKey {w after : List Char} {token : Token} (h : Stands a (w ++ ':' :: after) n (i :: is) toks true)
    (hi : i ≤ n) (hw : w ≠ []) (hlength : w.length ≤ 1024)
    (hread : a.readToken = .ok (a.behindKey w (':' :: after) token)) :
    Moves a (a.behindKey w (':' :: after) token) := by
  obtain ⟨s, hs⟩ : ∃ s, s = a.behindKey w (':' :: after) token := ⟨_, rfl⟩
  have hfresh : s.dropStale = .ok s := by
    rw [hs]
    exact dropStale_fresh rfl rfl (Nat.add_le_add_left hlength _)
  have hskip : s.skipToToken = s := by
    rw [hs]
    exact skipToToken_begins rfl (begins_cons.2 (by decide))
  have hblocks : s.unwind s.cursor.column = s := by
    have hindent : a.indent = i := (List.cons.inj h.blocks).1
    apply unwind_right
    rw [hs]
    simp only [behindKey, hindent, h.place]
    omega
  have harrive : s.arrive = .ok s := by
    rw [arrive, hskip, hfresh]
    simp only [bind, Except.bind, pure, Except.pure, hblocks]
  rw [← hs] at hread ⊢
  refine ⟨hread, ?_, hfresh, harrive, ?_⟩
  · rw [hs]
    exact h.running
  · rw [hs, h.text]
    have := List.length_pos_iff.2 hw
    simp only [behindKey, List.length_append, List.length_cons]
    omega

/-- The colon behind a scalar puts the mark of a key before it, and the mark of the mapping that begins
with it. -/
theorem readToken_value {w after : List Char} {token : Token} (h : Stands a (w ++ ':' :: after) n (i :: is) toks true)
    (hafter : endsWord after.head? = true) :
    ∃ s, (a.behindKey w (':' :: after) token).readToken = .ok s ∧ s.cursor.line = a.cursor.line ∧
      Stands s after (n + w.length + 1) (opened n (i :: is))
        (.mark .value :: token :: .mark .key :: opening .blockMapping n (i :: is) ++ toks) false := by
  have hpeek : (a.behindKey w (':' :: after) token).cursor.peekAt 1 = after.head? := by
    rw [Cursor.peekAt]
    cases after <;> rfl
  have hread : (a.behindKey w (':' :: after) token).readToken =
      (a.behindKey w (':' :: after) token).putValue := by
    have hflow : (a.behindKey w (':' :: after) token).inFlow = false := by
      simp [inFlow, behindKey, h.outside]
    have hcolon : (a.behindKey w (':' :: after) token).cursor.rest = ':' :: after := rfl
    simp [readToken, peek_eq hcolon, isAt_eq hcolon, hpeek, hafter, hflow]
  rw [hread]
  clear hread hpeek
  obtain ⟨⟨text, index, line, column⟩, tokens, depth, keyAllowed, candidates, indent, outer, ended⟩ := a
  obtain ⟨htext, hplace, hblocks, hread, houtside, hmay, hnone, hrunning, hdocument⟩ := h
  simp only at htext hplace hblocks hread houtside hmay hnone hrunning
  obtain ⟨rfl, rfl⟩ := List.cons.inj hblocks
  subst htext hplace houtside hmay hnone hrunning hread
  have hnext := Cursor.next_straight (c := ':') (by decide) after (index + w.length) line (column + w.length)
  have htwo (l m o : Lexeme) : (l :: m :: tokens).insertIdx (tokens.length + 1 + 1 - tokens.length) o =
      l :: m :: o :: tokens := by
    rw [Nat.add_assoc, Nat.add_sub_cancel_left]
    rfl
  by_cases hlt : indent < column
  · rw [opened_of_lt hlt, opening_of_lt hlt]
    refine ⟨_, (by
      simp [behindKey, candidate, putValue, inFlow, beginsBlock, hlt, pushIndent, putBefore, htwo]
      rfl), ?_, ?_⟩
    · simp [putIndicator, putWide, putMark, put, Cursor.advance, hnext]
    · constructor <;> simp_all [putIndicator, putWide, putMark, put, Cursor.advance]
  · rw [opened, opening, if_neg hlt, if_neg hlt]
    refine ⟨_, (by
      simp [behindKey, candidate, putValue, inFlow, beginsBlock, hlt, putBefore]
      rfl), ?_, ?_⟩
    · simp [putIndicator, putWide, putMark, put, Cursor.advance, hnext]
    · constructor <;> simp_all [putIndicator, putWide, putMark, put, Cursor.advance]

/-- A text that can be a key in front of its colon: it is written on one line, which is not too long. -/
structure IsKey (indent : Nat) (cs : List Char) (style : Style) : Prop where
  fits : Fits cs style
  oneLine : style ≠ .literal
  straight : (writtenIn indent cs style).text.all isStraight = true
  short : (writtenIn indent cs style).text.length ≤ 1024

theorem written_ne_nil {cs : List Char} {style : Style} (h : Fits cs style) (m : Nat) :
    (writtenIn m cs style).text ≠ [] := by
  cases style with
  | plain =>
    obtain ⟨c, rest, rfl, -⟩ := (h : IsPlain cs).text.first
    exact List.cons_ne_nil c rest
  | single | double | literal | folded => simp [writtenIn, ScalarText.single, ScalarText.double, ScalarText.literal]

section Key

variable {style : Style} {m : Nat} {cs after : List Char} (hm : 0 < m) (hkey : IsKey m cs style)
  (h : Stands a ((writtenIn m cs style).text ++ ':' :: after) n (i :: is) toks true) (hi : i ≤ n)
include hm hkey h hi

/-- A key and its colon. -/
theorem runs_key (hafter : endsWord after.head? = true) :
    ∃ b s, Moves a b ∧ b.readToken = .ok s ∧ s.cursor.rest.length < b.cursor.rest.length ∧
      ∃ column, n < column ∧ Stands s after column (opened n (i :: is))
        (.mark .value :: scalarToken style cs :: .mark .key :: opening .blockMapping n (i :: is) ++ toks)
        false := by
  have hread := readToken_key hm hkey.fits hkey.oneLine h hi hafter hkey.straight
  have hmove := moves_behindKey h hi (written_ne_nil hkey.fits m) hkey.short hread
  obtain ⟨s, hs, -, hstands⟩ := @readToken_value _ _ _ _ _ _ _ (scalarToken style cs) h hafter
  refine ⟨_, s, hmove, hs, ?_, _, ?_, hstands⟩
  · rw [hstands.text]
    exact Nat.lt_succ_self _
  · omega

/-- The value of a key may stand on the same line. -/
theorem runs_key_inline {rest : List Char} (hafter : after = ' ' :: rest) (hrest : Begins rest) :
    ∃ b column, Runs a b ∧ n < column ∧ Stands b rest column (opened n (i :: is))
      (.mark .value :: scalarToken style cs :: .mark .key :: opening .blockMapping n (i :: is) ++ toks) false := by
  subst hafter
  obtain ⟨b, s, hmove, hs, hlt, column, hcolumn, hstands⟩ := runs_key hm hkey h hi rfl
  rw [hstands.text, List.length_cons] at hlt
  obtain ⟨c, hnext, hc⟩ := moves_space hs hstands hrest hlt
  obtain ⟨hopen, hends⟩ := @openAt_opened _ (column + 1) _ is hi (by omega)
  rw [hopen, hends] at hc
  exact ⟨c, column + 1, .tail (.single hmove) hnext, by omega, hc⟩

/-- The value of a key may be a collection on the following lines. -/
theorem runs_key_below {rest : List Char} {k : Nat} (hk : n ≤ k)
    (hafter : after = '\n' :: (List.replicate k ' ' ++ rest)) (hrest : Begins rest) :
    ∃ b, Runs a b ∧ Stands b rest k (opened n (i :: is))
      (.mark .value :: scalarToken style cs :: .mark .key :: opening .blockMapping n (i :: is) ++ toks) true := by
  subst hafter
  obtain ⟨b, s, hmove, hs, hlt, column, -, hstands⟩ := runs_key hm hkey h hi rfl
  obtain ⟨c, hnext, hc⟩ := moves_newline hs (Cursor.eq_of_rest hstands.text) hrest
    (Loose.of_nil hstands.noCandidates _) (Nat.le_refl _)
    ⟨rfl, rfl, hstands.blocks, hstands.read, hstands.outside, rfl, rfl, hstands.running, hstands.document⟩ hlt
  obtain ⟨hopen, hends⟩ := @openAt_opened _ k _ is hi hk
  rw [hopen, hends] at hc
  exact ⟨c, .tail (.single hmove) hnext, hc⟩

end Key

/-! ## Empty collections -/

/-- The brackets of an empty collection with their marks. -/
inductive Brackets : Char → Char → Mark → Mark → Prop
  | sequence : Brackets '[' ']' .openSequence .closeSequence
  | mapping : Brackets '\x7b' '\x7d' .openMapping .closeMapping

theorem Brackets.readToken_open {x y : Char} {m o : Mark} (hb : Brackets x y m o) {text : List Char}
    (h : a.cursor.rest = x :: text) : a.readToken = a.openFlow m := by
  cases hb <;> simp [readToken, peek_eq h, isAt_eq h]

theorem Brackets.readToken_close {x y : Char} {m o : Mark} (hb : Brackets x y m o) {text : List Char}
    (h : a.cursor.rest = y :: text) : a.readToken = a.closeFlow o := by
  cases hb <;> simp [readToken, peek_eq h, isAt_eq h]

theorem Brackets.straight {x y : Char} {m o : Mark} (hb : Brackets x y m o) :
    isStraight x = true ∧ isStraight y = true ∧ y ≠ ' ' ∧ y ≠ '#' := by
  cases hb <;> decide

/-- The reader `b` stands behind an opening bracket at which `a` stands. -/
structure Inside (a b : Reader) (m : Mark) (text : List Char) : Prop where
  cursor : b.cursor = ⟨text, a.cursor.index + 1, a.cursor.line, a.cursor.column + 1⟩
  blocks : b.indent :: b.outer = a.indent :: a.outer
  read : b.tokens.map Lexeme.token = .mark m :: a.tokens.map Lexeme.token
  depth : b.depth = 1
  running : b.ended = false
  loose : b.Loose a.cursor.line

section Empty

variable {x y : Char} {m o : Mark} (hb : Brackets x y m o) {text : List Char}
  (h : Stands a (x :: y :: text) n (i :: is) toks ka)
include hb h

/-- The opening bracket of an empty collection; nothing lies between the brackets. -/
theorem moves_open (hi : i < n) : ∃ b, Moves a b ∧ Inside a b m (y :: text) := by
  obtain ⟨s, hs, hcursor, htokens, hindent, houter, hdepth, hended, hloose⟩ := saveCandidate_loose h hi
  obtain ⟨t, ht⟩ : ∃ t : Reader, t = { s.putIndicator m with depth := s.depth + 1, keyAllowed := true } :=
    ⟨_, rfl⟩
  have hopen : a.readToken = .ok t := by
    rw [hb.readToken_open h.text, openFlow, hs, ht]
    rfl
  have hinside : Inside a t m (y :: text) := by
    have hnext := Cursor.next_straight hb.straight.1 (y :: text) a.cursor.index a.cursor.line a.cursor.column
    rw [← Cursor.eq_of_rest h.text] at hnext
    subst ht
    constructor
    · simp only [putIndicator, putWide, putMark, put, Cursor.advance, hcursor, hnext]
    · simp only [putIndicator, putWide, putMark, put, hindent, houter]
    · simp only [putIndicator, putWide, putMark, put, List.map_cons, htokens]
    · simp only [hdepth, h.outside, Int.zero_add]
    · exact hended.trans h.running
    · exact hloose
  obtain ⟨ks, hks, hfresh⟩ := dropStale_loose fun p hp => (hinside.loose p hp).1
  obtain ⟨ls, hls, hfresh'⟩ := dropStale_loose (r := { t with candidates := ks })
    fun p hp => (hinside.loose p (hks p hp)).1
  have hskip : ({ t with candidates := ks } : Reader).skipToToken = { t with candidates := ks } :=
    skipToToken_begins hinside.cursor (begins_cons.2 hb.straight.2)
  have hflow : ({ t with candidates := ls } : Reader).inFlow = true := by simp [inFlow, hinside.depth]
  have harrive : ({ t with candidates := ks } : Reader).arrive = .ok { t with candidates := ls } := by
    rw [arrive, hskip, hfresh']
    simp only [bind, Except.bind, pure, Except.pure, unwind, hflow, if_true]
  refine ⟨{ t with candidates := ls }, ⟨hopen, hinside.running, hfresh, harrive, ?_⟩, hinside.cursor,
    hinside.blocks, hinside.read, hinside.depth, hinside.running, fun p hp => hinside.loose p (hks p (hls p hp))⟩
  rw [show ({ t with candidates := ks } : Reader).cursor = _ from hinside.cursor, h.text]
  exact Nat.lt_succ_self _

/-- The closing bracket of an empty collection, and the line that it ends. -/
theorem moves_close {b : Reader} {k : Nat} {rest : List Char} (hin : Inside a b m (y :: text))
    (htext : text = Cursor.lineTail false k rest) (hrest : Begins rest) :
    ∃ c, Moves b c ∧ Stands c rest k (openAt k (i :: is))
      (blockEnds k (i :: is) ++ .mark o :: .mark m :: toks) true := by
  have hnot : ((b.candidates.lookup b.depth).any (·.required)) = false := by
    cases hlookup : b.candidates.lookup b.depth with
    | none => rfl
    | some c =>
      obtain ⟨before, after, heq, -⟩ := List.lookup_eq_some_iff.1 hlookup
      exact (hin.loose (b.depth, c) (heq ▸ by simp)).1
  obtain ⟨c, hc⟩ : ∃ c : Reader, c = { b with
      candidates := b.candidates.filter fun candidate => candidate.1 != b.depth } := ⟨_, rfl⟩
  have hclose : b.readToken = .ok { c.putIndicator o with depth := c.depth - 1, keyAllowed := false } := by
    have hrest : b.cursor.rest = y :: text := by rw [hin.cursor]
    rw [hb.readToken_close hrest, closeFlow, dropCandidate, hnot, hc]
    rfl
  have hend : (c.putIndicator o).cursor = ⟨'\n' :: (List.replicate k ' ' ++ rest), a.cursor.index + 1 + 1,
      a.cursor.line, a.cursor.column + 1 + 1⟩ := by
    have hccursor : (c.putIndicator o).cursor = b.cursor.next := by
      rw [hc]
      rfl
    rw [hccursor, hin.cursor, Cursor.next_straight hb.straight.2.1, htext, lineTail_false]
  refine moves_newline hclose hend hrest
    (fun p hp => hin.loose p ?_) (Nat.le_refl _) ?_ ?_
  · rw [hc] at hp
    exact List.mem_of_mem_filter hp
  · subst hc
    refine ⟨rfl, rfl, hin.blocks.trans h.blocks, ?_, ?_, rfl, rfl, hin.running, h.document⟩
    · simp only [putIndicator, putWide, putMark, put, List.map_cons, hin.read, h.read]
    · show b.depth - 1 = 0
      rw [hin.depth]
      rfl
  · show (c.putIndicator o).cursor.rest.length < _
    rw [hend, hin.cursor, htext, lineTail_false]
    exact Nat.lt_succ_self _

end Empty

/-- An empty collection in brackets, and the line that it ends. -/
theorem runs_brackets {x y : Char} {m o : Mark} (hb : Brackets x y m o) {k : Nat}
    (h : Stands a (x :: y :: Cursor.lineTail false k rest) n (i :: is) toks ka) (hi : i < n)
    (hrest : Begins rest) :
    ∃ b, Runs a b ∧ Stands b rest k (openAt k (i :: is))
      (blockEnds k (i :: is) ++ .mark o :: .mark m :: toks) true := by
  obtain ⟨b, hopen, hin⟩ := moves_open hb h hi
  obtain ⟨c, hclose, hc⟩ := moves_close hb h hin rfl hrest
  exact ⟨c, .tail (.single hopen) hclose, hc⟩

end Reader

end PipelineTemplate.Yaml
