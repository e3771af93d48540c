import PipelineTemplate.Proofs.Yaml.Draft

/-!
# The tokens of a document

The layout of a draft, from the beginning of a text to its end: all its characters may stand in a
document, and the tokens of the text are those of the draft between the marks of the stream.
-/

namespace PipelineTemplate.Yaml

/-! ## Characters -/

/-- All characters may stand in a document. -/
def Allowed (cs : List Char) : Prop := ∀ c ∈ cs, isAllowed c = true

theorem allowed_nil : Allowed [] := fun _ hc => absurd hc List.not_mem_nil

theorem Allowed.cons {c : Char} {cs : List Char} (hc : isAllowed c = true) (h : Allowed cs) :
    Allowed (c :: cs) := List.forall_mem_cons.2 ⟨hc, h⟩

theorem Allowed.append {xs ys : List Char} (hx : Allowed xs) (hy : Allowed ys) : Allowed (xs ++ ys) := by
  intro c hc
  rcases List.mem_append.1 hc with h | h
  · exact hx c h
  · exact hy c h

theorem allowed_spaces (n : Nat) : Allowed (List.replicate n ' ') := by
  intro c hc
  rw [List.eq_of_mem_replicate hc]
  decide

namespace ScalarText

theorem allowed_indented {cs : List Char} (h : Allowed cs) (n : Nat) (start : Bool) :
    Allowed (indented n start cs) := by
  induction cs generalizing start with
  | nil => exact allowed_nil
  | cons c cs ih =>
    obtain ⟨hc, hcs⟩ := List.forall_mem_cons.1 h
    rw [indented]
    split
    · exact (ih hcs _).cons hc
    · split
      · exact (allowed_spaces n).append ((ih hcs _).cons hc)
      · exact (ih hcs _).cons hc

theorem allowed_singleBody {cs : List Char} (h : Allowed cs) (n : Nat) : Allowed (singleBody n cs) := by
  induction cs with
  | nil => exact allowed_nil
  | cons c cs ih =>
    obtain ⟨hc, hcs⟩ := List.forall_mem_cons.1 h
    rw [singleBody]
    refine Allowed.append (Allowed.append ?_ ?_) (ih hcs)
    · split
      · exact (allowed_nil.cons (by decide)).cons (by decide)
      · exact allowed_nil.cons hc
    · split
      · exact allowed_spaces n
      · exact allowed_nil

theorem allowed_escaped (cs : List Char) : Allowed (cs.flatMap escaped) := by
  intro d hd
  obtain ⟨c, -, hc⟩ := List.mem_flatMap.1 hd
  rcases escaped_cases c with ⟨he, -, -, -, -, ha⟩ | ⟨code, he, hcode, -⟩
  · rw [he, List.mem_singleton] at hc
    rwa [hc]
  · rw [he, List.mem_cons] at hc
    rcases hc with rfl | hc
    · decide
    · have := List.all_eq_true.1 hcode d hc
      simp only [Bool.and_eq_true] at this
      exact this.2

theorem allowed_blockHints (cs : List Char) : Allowed (blockHints cs) := by
  have hall : ∀ c ∈ ['2', '-', '+'], isAllowed c = true := forall_mem_of_all (by decide)
  exact fun c hc => hall c (mem_blockHints hc)

end ScalarText

/-- What is written of a text may stand in a document. -/
theorem allowed_written {text : List Char} {style : Style} (h : Draft.Writable text style) (n : Nat) :
    Allowed (writtenIn n text style).text := by
  have hraw (hs : style ≠ .double) : Allowed text := h.allowed.resolve_left hs
  have hliteral (hs : style ≠ .double) : Allowed (ScalarText.literal n text).text :=
    ((ScalarText.allowed_blockHints text).cons (by decide)).append
      ((ScalarText.allowed_indented (hraw hs) n true).cons (by decide))
  cases style with
  | plain => exact hraw (by decide)
  | single =>
    exact ((ScalarText.allowed_singleBody (hraw (by decide)) n).cons (by decide)).append
      (allowed_nil.cons (by decide))
  | double => exact ((ScalarText.allowed_escaped text).cons (by decide)).append (allowed_nil.cons (by decide))
  | literal => exact hliteral (by decide)
  | folded => exact hliteral (by decide)

namespace Draft

theorem allowed_followed {w : Written} (h : Allowed w.text) (k : Nat) {rest : List Char} (hr : Allowed rest) :
    Allowed (w.followed k rest) := by
  refine h.append (Allowed.append ?_ ((allowed_spaces k).append hr))
  split
  · exact allowed_nil
  · exact allowed_nil.cons (by decide)

theorem allowed_of_followed {w : Written} {k : Nat} {rest : List Char} (h : Allowed (w.followed k rest)) :
    Allowed w.text := fun c hc => h c (List.mem_append_left _ hc)

theorem allowed_stacked {n : Nat} {first : Written} {others : List Written} (hf : Allowed first.text)
    (ho : ∀ w ∈ others, Allowed w.text) : Allowed (Outline.stacked n first others).text := by
  induction others generalizing first with
  | nil => exact hf
  | cons second others ih =>
    obtain ⟨hs, ho⟩ := List.forall_mem_cons.1 ho
    apply @allowed_of_followed _ 0 []
    rw [Outline.stacked_cons, Outline.followed_above]
    exact allowed_followed hf _ (allowed_followed (ih hs ho) _ allowed_nil)

theorem allowed_behind {start : List Char} {w : Written} (hs : Allowed start) (hw : Allowed w.text) :
    Allowed (Outline.behind start w).text := hs.append hw

theorem allowed_entry {n : Nat} {key value : Written} (hk : Allowed key.text) (hv : Allowed value.text)
    (simpleKey blockValue : Bool) : Allowed (Outline.entry n simpleKey blockValue key value).text := by
  have hvalue := allowed_followed hv 0 allowed_nil
  apply @allowed_of_followed _ 0 []
  cases simpleKey with
  | true =>
    cases blockValue with
    | true =>
      rw [Outline.followed_entry_below]
      exact hk.append ((((allowed_spaces _).append hvalue).cons (by decide)).cons (by decide))
    | false =>
      rw [Outline.followed_entry_inline]
      exact hk.append ((hvalue.cons (by decide)).cons (by decide))
  | false =>
    rw [Outline.followed_entry_marked]
    exact ((allowed_followed hk _ ((hvalue.cons (by decide)).cons (by decide))).cons (by decide)).cons (by decide)

mutual

theorem allowed_block : ∀ {n : Nat} (d : Draft), Valid n d → Allowed (block n d).text
  | n, .scalar style text, h => by
    rw [Valid] at h
    rw [block]
    exact allowed_written h n
  | _, .sequence [], _ => (forall_mem_of_all (by decide) : ∀ c ∈ ['[', ']'], isAllowed c = true)
  | n, .sequence (item :: items), h => by
    rw [Valid] at h
    obtain ⟨hf, ho⟩ := List.forall_mem_cons.1 (allowed_items (item :: items) h)
    rw [block_sequence]
    exact allowed_stacked hf ho
  | _, .mapping [], _ => (forall_mem_of_all (by decide) : ∀ c ∈ ['\x7b', '\x7d'], isAllowed c = true)
  | n, .mapping ((key, value) :: entries), h => by
    rw [Valid] at h
    obtain ⟨hf, ho⟩ := List.forall_mem_cons.1 (allowed_entries ((key, value) :: entries) h)
    rw [block_mapping]
    exact allowed_stacked hf ho

theorem allowed_items : ∀ {n : Nat} (items : List Draft), ValidItems n items →
    ∀ w ∈ blockItems n items, Allowed w.text
  | _, [], _ => fun _ hw => absurd hw List.not_mem_nil
  | n, item :: items, h => by
    rw [ValidItems] at h
    rw [blockItems]
    exact List.forall_mem_cons.2 ⟨allowed_behind (forall_mem_of_all (by decide) : ∀ c ∈ ['-', ' '], isAllowed c = true)
      (allowed_block item h.1), allowed_items items h.2⟩

theorem allowed_entries : ∀ {n : Nat} (entries : List (DraftKey × Draft)), ValidEntries n entries →
    ∀ w ∈ blockEntries n entries, Allowed w.text
  | _, [], _ => fun _ hw => absurd hw List.not_mem_nil
  | n, (key, value) :: entries, h => by
    rw [ValidEntries] at h
    rw [blockEntries]
    exact List.forall_mem_cons.2 ⟨allowed_entry (allowed_written h.1 _) (allowed_block value h.2.2.1) _ _,
      allowed_entries entries h.2.2.2⟩

end

end Draft

/-! ## The ends of a text -/

namespace Reader

variable {a t : Reader} {rest : List Char} {n : Nat} {toks : List Token} {ka : Bool}

/-- Before a text stands the mark of the stream. -/
def start (text : List Char) : Reader :=
  { cursor := { rest := text }, tokens := [⟨.mark .streamStart, 0⟩] }

theorem start_stands {text : List Char} (h : Begins text) :
    (start text).arrive = .ok (start text) ∧ Stands (start text) text 0 [-1] [.mark .streamStart] true := by
  constructor
  · rw [arrive, skipToToken_begins (r := start text) rfl h, dropStale_nil rfl]
    exact congrArg Except.ok (@unwind_right _ 0 (show (-1 : Int) ≤ 0 by decide))
  · exact ⟨rfl, rfl, rfl, rfl, rfl, rfl, rfl, rfl, List.mem_singleton_self _⟩

/-- Where a document ends all collections end. -/
theorem leaveBlocks_stands {is : List Nat} (h : Stands { a with candidates := [] } rest n (is.map Int.ofNat ++ [-1]) toks ka)
    (hloose : ∀ p ∈ a.candidates, p.2.required = false) :
    ∃ s, a.leaveBlocks = .ok s ∧ s.cursor = a.cursor ∧ (a.candidates = [] → s.candidates = []) ∧
      Stands { s with candidates := [] } rest n [-1] (List.replicate is.length (.mark .blockEnd) ++ toks) false := by
  have hflow : a.inFlow = false := by
    have : a.depth = 0 := h.outside
    simp [inFlow, this]
  have hspan : (a.indent :: a.outer).span ((-1 : Int) < ·) = (is.map Int.ofNat, [-1]) := by
    rw [show a.indent :: a.outer = _ from h.blocks, List.span_eq_takeWhile_dropWhile, List.takeWhile_append_of_pos,
      List.dropWhile_append_of_pos]
    · simp
    all_goals
      intro i hi
      obtain ⟨m, -, rfl⟩ := List.mem_map.1 hi
      exact decide_eq_true (Int.lt_of_lt_of_le (by decide) (Int.natCast_nonneg m))
  have hunwind : a.unwind (-1) = { a with
      tokens := List.replicate is.length ⟨.mark .blockEnd, a.cursor.line⟩ ++ a.tokens
      indent := -1
      outer := [] } := by
    rw [unwind]
    simp only [hflow, Bool.false_eq_true, if_false, hspan, List.length_map, List.headD_cons, List.tail_cons]
  have hfree : (a.candidates.lookup a.depth).any (·.required) = false := by
    cases hlookup : a.candidates.lookup a.depth with
    | none => rfl
    | some k =>
      obtain ⟨before, after, heq, -⟩ := List.lookup_eq_some_iff.1 hlookup
      exact hloose (a.depth, k) (heq ▸ by simp)
  rw [leaveBlocks, hunwind]
  simp only [dropCandidate, hfree, Bool.false_eq_true, if_false, bind, Except.bind, pure, Except.pure]
  refine ⟨_, rfl, rfl, fun hnone => by simp [hnone], ?_⟩
  have hread : a.tokens.map Lexeme.token = toks := h.read
  constructor
  · exact h.text
  · exact h.place
  · rfl
  · simp [hread]
  · exact h.outside
  · rfl
  · rfl
  · exact h.running
  · exact List.mem_singleton_self _

theorem Stands.free {indents : List Int} (h : Stands a rest n indents toks ka) :
    Stands { a with candidates := [] } rest n indents toks ka :=
  ⟨h.text, h.place, h.blocks, h.read, h.outside, h.mayBegin, rfl, h.running, h.document⟩

theorem Stands.loose {indents : List Int} (h : Stands a rest n indents toks ka) :
    ∀ p ∈ a.candidates, p.2.required = false := by
  rw [h.noCandidates]
  exact fun p hp => absurd hp List.not_mem_nil

/-- At the end of the text the last collections end, and the stream. -/
theorem readAll_end {is : List Nat} (ht : t.arrive = .ok a)
    (h : Stands { a with candidates := [] } [] n (is.map Int.ofNat ++ [-1]) toks ka)
    (hloose : ∀ p ∈ a.candidates, p.2.required = false) :
    ∃ lexemes, t.readAll = (lexemes, none) ∧ lexemes.map Lexeme.token =
      toks.reverse ++ List.replicate is.length (.mark .blockEnd) ++ [.mark .streamEnd] := by
  obtain ⟨s, hs, -, -, hstands⟩ := leaveBlocks_stands h hloose
  have hread : a.readToken = .ok { s.putMark .streamEnd with candidates := [], ended := true } := by
    have hpeek : a.cursor.peek = none := by rw [Cursor.peek, show a.cursor.rest = [] from h.text]; rfl
    simp only [readToken, hpeek, hs, bind, Except.bind, pure, Except.pure]
  have hstep : t.step = .ok { s.putMark .streamEnd with candidates := [], ended := true } := by
    rw [step_eq]
    simp only [ht, hread, bind, Except.bind, if_true, pure, Except.pure]
  have htokens : s.tokens.map Lexeme.token = _ := hstands.read
  rw [readAll, hstep]
  refine ⟨_, rfl, ?_⟩
  rw [List.map_reverse]
  simp [putMark, put, htokens]

/-- A mark of the end ends the document before the text ends. -/
theorem readAll_marked {is : List Nat} (ht : t.arrive = .ok a)
    (h : Stands a ['.', '.', '.', '\n'] 0 (is.map Int.ofNat ++ [-1]) toks ka) :
    ∃ lexemes, t.readAll = (lexemes, none) ∧ lexemes.map Lexeme.token =
      toks.reverse ++ List.replicate is.length (.mark .blockEnd) ++ [.mark .documentEnd, .mark .streamEnd] := by
  obtain ⟨s, hs, hcursor, hnone, hstands⟩ := leaveBlocks_stands h.free h.loose
  have hplace : a.cursor = ⟨['.', '.', '.', '\n'], a.cursor.index, a.cursor.line, 0⟩ := by
    rw [← h.place]
    exact Cursor.eq_of_rest h.text
  have hread : a.readToken = .ok (s.putWide .documentEnd 3) := by
    have hmark : a.cursor.atDocumentMark = true := by rw [hplace]; rfl
    simp [readToken, peek_eq h.text, isAt_eq h.text, h.place, hmark, hs, bind, Except.bind, pure, Except.pure]
  have hend : (s.putWide .documentEnd 3).cursor = ⟨'\n' :: (List.replicate 0 ' ' ++ []),
      a.cursor.index + 3, a.cursor.line, 3⟩ := by
    show s.cursor.advance 3 = _
    rw [hcursor, hplace]
    rfl
  obtain ⟨b, hmove, hb⟩ := @moves_newline _ [-1]
    (.mark .documentEnd :: (List.replicate is.length (.mark .blockEnd) ++ toks)) _ _ _ _ _ _ _ hread hend
    begins_nil (Loose.of_nil (hnone h.noCandidates) a.cursor.line) (Nat.le_refl _)
    ⟨rfl, rfl, hstands.blocks, congrArg _ hstands.read, hstands.outside, rfl, rfl, hstands.running,
      hstands.document⟩ (by
      rw [hend, h.text]
      show 1 < 4
      decide)
  obtain ⟨u, hu, hall⟩ := readAll_runs ht (.single hmove)
  obtain ⟨lexemes, hlexemes, htokens⟩ := @readAll_end _ _ _ _ _ [] hu hb.free hb.loose
  refine ⟨lexemes, hall.trans hlexemes, ?_⟩
  rw [htokens]
  simp [blockEnds]

end Reader

/-! ## Documents -/

namespace Draft

open Reader

/-- What may follow the last line of a document: nothing, or the mark of its end. -/
def ending (marked : Bool) : List Char := if marked then ['.', '.', '.', '\n'] else []

theorem begins_ending (marked : Bool) : Begins (ending marked) := by
  cases marked with
  | false => exact begins_nil
  | true => exact begins_cons.2 (by decide)

theorem allowed_ending (marked : Bool) : Allowed (ending marked) := by
  cases marked with
  | false => exact allowed_nil
  | true => exact (forall_mem_of_all (by decide) : ∀ c ∈ ['.', '.', '.', '\n'], isAllowed c = true)

/-- The indentation of what the lines of a whole document hold. -/
def rootIndent (d : Draft) : Nat := if d.isBlock then 0 else 2

/-- The text of a document. -/
def text (d : Draft) (marked : Bool) : List Char := (block d.rootIndent d).followed 0 (ending marked)

/-- The end of a plain scalar that is the whole document has to be marked. -/
def NeedsMark (d : Draft) : Prop := ∃ text, d = .scalar .plain text

variable {d : Draft} {marked : Bool}

/-- A document is read from the beginning of its text up to the ending, where a collection is still
open if it is one. -/
theorem runs_text (hvalid : Valid d.rootIndent d) (hmark : d.NeedsMark → marked = true) :
    ∃ b toks, ∃ is : List Nat, Runs (start (d.text marked)) b ∧
      Stands b (ending marked) 0 (is.map Int.ofNat ++ [-1]) toks true ∧
      toks.reverse ++ List.replicate is.length (.mark .blockEnd) = .mark .streamStart :: tokens d := by
  have hrest := begins_ending marked
  obtain ⟨-, hstart⟩ := start_stands (begins_block hvalid 0 (ending marked))
  cases hblock : d.isBlock with
  | false =>
    have hindent : d.rootIndent = 2 := by simp [rootIndent, hblock]
    rw [hindent] at hvalid hstart
    obtain ⟨b, hruns, hb⟩ := runs_inline hblock hvalid hstart (by decide) rfl (by decide) hrest (by
      cases hm : marked with
      | true => exact .inr (.inl ⟨rfl, rfl⟩)
      | false =>
        right; right
        rintro text rfl
        exact absurd (hmark ⟨text, rfl⟩) (by simp [hm]))
    rw [text, hindent]
    exact ⟨b, _, [], hruns, hb, by simp [blockEnds]⟩
  | true =>
    have hindent : d.rootIndent = 0 := by simp [rootIndent, hblock]
    rw [hindent] at hvalid hstart
    rw [text, hindent]
    cases d with
    | scalar style text => simp [isBlock] at hblock
    | sequence items =>
      cases items with
      | nil => simp [isBlock] at hblock
      | cons item items =>
        rw [block_sequence] at hstart ⊢
        rw [Valid] at hvalid
        obtain ⟨b, hruns, hb⟩ := runs_items (by decide) (Nat.le_refl 0) hrest
          (fun d _ => readable d) hvalid hstart
        exact ⟨b, _, [0], hruns, hb, by simp [tokens, opening, opened]⟩
    | mapping entries =>
      cases entries with
      | nil => simp [isBlock] at hblock
      | cons entry entries =>
        obtain ⟨key, value⟩ := entry
        rw [block_mapping] at hstart ⊢
        rw [Valid] at hvalid
        obtain ⟨b, hruns, hb⟩ := runs_entries (by decide) (Nat.le_refl 0) hrest
          (fun e _ => readable e.2) hvalid hstart
        exact ⟨b, _, [0], hruns, hb, by simp [tokens, opening, opened]⟩

/-- The tokens of a document are those of its draft. -/
theorem tokens_text (hvalid : Valid d.rootIndent d) (hmark : d.NeedsMark → marked = true) :
    ∃ lexemes, Yaml.tokens (d.text marked) = .ok (lexemes, none) ∧ lexemes.map Lexeme.token =
      .mark .streamStart :: tokens d ++ (if marked then [.mark .documentEnd] else []) ++ [.mark .streamEnd] := by
  have hallowed : (d.text marked).all isAllowed = true :=
    List.all_eq_true.2 (allowed_followed (allowed_block d hvalid) 0 (allowed_ending marked))
  obtain ⟨b, toks, is, hruns, hb, htoks⟩ := runs_text hvalid hmark
  obtain ⟨t, ht, hall⟩ := readAll_runs (start_stands (begins_block hvalid 0 (ending marked))).1 hruns
  have hread : Yaml.tokens (d.text marked) = .ok (readAll t) := by
    rw [Yaml.tokens, if_pos hallowed, ← hall]
    rfl
  cases marked with
  | false =>
    obtain ⟨lexemes, hlexemes, htokens⟩ := readAll_end ht hb.free hb.loose
    refine ⟨lexemes, by rw [hread, hlexemes], ?_⟩
    rw [htokens, htoks]
    simp
  | true =>
    obtain ⟨lexemes, hlexemes, htokens⟩ := readAll_marked ht hb
    refine ⟨lexemes, by rw [hread, hlexemes], ?_⟩
    rw [htokens, htoks]
    simp

/-! ## A scalar in quotes at the end of the text -/

section Quoted

variable {double : Bool} {style : Style} {body cs : List Char}

/-- A scalar in quotes with which the text ends; the collections that are open begin at the margin. -/
theorem moves_quoted_last {a : Reader} {n : Nat} {i : Int} {is : List Int} {toks : List Token} {ka : Bool}
    (hread : a.readToken = a.putContent fun c => do
      let (s, d) ← c.quotedScalar double
      return (scalarToken style s, d))
    (hstands : Stands a (Cursor.quoteMark double :: (body ++ [Cursor.quoteMark double])) n (i :: is) toks ka)
    (hbody : ∀ c : Cursor, c.rest = body ++ [Cursor.quoteMark double] →
      c.quotedRest double = .ok (cs, c.advance (body.length + 1)))
    (hi : i < n) (hmargin : i ≤ 0) :
    ∃ b k ka, Moves a b ∧ Stands { b with candidates := [] } [] k (i :: is) (scalarToken style cs :: toks) ka ∧
      ∀ p ∈ b.candidates, p.2.required = false := by
  have hnext : a.cursor.next.rest = body ++ [Cursor.quoteMark double] := by
    rw [Cursor.next_rest, hstands.text]
    rfl
  have hcontent : a.cursor.quotedScalar double = .ok (cs, a.cursor.next.advance (body.length + 1)) := by
    rw [Cursor.quotedScalar, hbody _ hnext]
  obtain ⟨s, hs, hcursor, htook⟩ := @putContent_took _ _ _ _ _ _ _ hstands hi
    (fun c => do
      let (s, d) ← c.quotedScalar double
      return (scalarToken style s, d)) (scalarToken style cs)
    (a.cursor.next.advance (body.length + 1)) (by
      simp only [hcontent, bind, Except.bind, pure, Except.pure])
  have hend : s.cursor.rest = [] := by
    have := @Cursor.advance_rest_append a.cursor.next (body ++ [Cursor.quoteMark double]) []
      (by rw [hnext, List.append_nil])
    rw [List.length_append, List.length_singleton] at this
    rw [hcursor, this]
  -- the candidate need not become a key
  obtain ⟨ks, hks, hfresh⟩ := dropStale_loose fun p hp => (htook.loose p hp).1
  obtain ⟨ls, hls, hfresh'⟩ := dropStale_loose (r := { s with candidates := ks })
    fun p hp => (htook.loose p (hks p hp)).1
  have hskip : ({ s with candidates := ks } : Reader).skipToToken = { s with candidates := ks } :=
    skipToToken_begins (Cursor.eq_of_rest hend) begins_nil
  have htaken := htook.stands hstands [] s.cursor.index s.cursor.line s.cursor.column s.keyAllowed
  have hright : ({ s with candidates := ls } : Reader).unwind s.cursor.column = { s with candidates := ls } := by
    have hindent : s.indent = i := (List.cons.inj htaken.blocks).1
    exact unwind_right (show s.indent ≤ (s.cursor.column : Int) by omega)
  have harrive : ({ s with candidates := ks } : Reader).arrive = .ok { s with candidates := ls } := by
    rw [arrive, hskip, hfresh']
    simp only [bind, Except.bind, pure, Except.pure, hright]
  have hmove : Moves a { s with candidates := ls } := by
    refine ⟨hread.trans hs, htaken.running, hfresh, harrive, ?_⟩
    rw [hstands.text]
    show s.cursor.rest.length < _
    rw [hend]
    exact Nat.succ_pos _
  refine ⟨_, s.cursor.column, s.keyAllowed, hmove, ?_, fun p hp => (htook.loose p (hks p (hls p hp))).1⟩
  exact ⟨hend, rfl, htaken.blocks, htaken.read, htaken.outside, rfl, rfl, htaken.running, htaken.document⟩

/-- A text may be a scalar in quotes and nothing else. -/
theorem tokens_enclosed (hallowed : Allowed body)
    (hbody : ∀ c : Cursor, c.rest = body ++ [Cursor.quoteMark double] →
      c.quotedRest double = .ok (cs, c.advance (body.length + 1))) :
    ∃ lexemes, Yaml.tokens (Cursor.quoteMark double :: (body ++ [Cursor.quoteMark double])) = .ok (lexemes, none) ∧
      lexemes.map Lexeme.token =
        [.mark .streamStart, scalarToken (Cursor.quoteStyle double) cs, .mark .streamEnd] := by
  have hquote : isAllowed (Cursor.quoteMark double) = true := by cases double <;> decide
  have hall : (Cursor.quoteMark double :: (body ++ [Cursor.quoteMark double])).all isAllowed = true :=
    List.all_eq_true.2 ((hallowed.append (allowed_nil.cons hquote)).cons hquote)
  have hbegins : Begins (Cursor.quoteMark double :: (body ++ [Cursor.quoteMark double])) :=
    begins_cons.2 (by cases double <;> decide)
  obtain ⟨harrive, hstart⟩ := start_stands hbegins
  obtain ⟨b, k, ka, hmove, hb, hloose⟩ :=
    moves_quoted_last (readToken_quoted hstart) hstart hbody (by decide) (by decide)
  obtain ⟨t, ht, hread⟩ := readAll_runs harrive (.single hmove)
  obtain ⟨lexemes, hlexemes, htokens⟩ := @readAll_end _ _ _ _ _ [] ht hb hloose
  refine ⟨lexemes, ?_, by simpa using htokens⟩
  rw [Yaml.tokens, if_pos hall, ← hlexemes, ← hread]
  rfl

end Quoted

/-- What the writer puts in quotes is one scalar. -/
theorem tokens_quoted {n : Nat} (hn : 0 < n) {text : List Char} {style : Style}
    (hstyle : style = .single ∨ style = .double) (h : Writable text style) :
    ∃ lexemes, Yaml.tokens (writtenIn n text style).text = .ok (lexemes, none) ∧
      lexemes.map Lexeme.token = [.mark .streamStart, scalarToken style text, .mark .streamEnd] := by
  rcases hstyle with rfl | rfl
  · exact @tokens_enclosed false _ _ (ScalarText.allowed_singleBody (h.allowed.resolve_left (by decide)) n)
      (Cursor.quotedRest_single hn h.fits (by simp))
  · exact @tokens_enclosed true _ _ (ScalarText.allowed_escaped text) (Cursor.quotedRest_double _ _)

end Draft

end PipelineTemplate.Yaml
