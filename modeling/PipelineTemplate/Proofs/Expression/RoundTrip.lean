import PipelineTemplate.Proofs.Expression.Parse
import PipelineTemplate.Proofs.Expression.Print
import PipelineTemplate.Proofs.Number.Whole
import PipelineTemplate.Proofs.Run.Reuse

/-!
# Reading back what is written

Main statement: an expression that is written with a blank between its tokens is read from its text, with
parentheses only where it could not be derived without them. So a text that is quoted evaluates to itself.
-/

namespace PipelineTemplate

/-! ## Texts of tokens -/

namespace Text

/-- A decimal digit of any script is no blank. -/
theorem isBlank_of_isDecimal {c : Char} (h : isDecimal c = true) : isBlank c = false := by
  by_cases hplain : c.toNat < 128
  · rw [isDecimal_of_toNat_lt hplain] at h
    exact isBlank_of_isPlainDigit h
  · -- No blank stands among the ten digits after a zero.
    rw [isDecimal, decimalValue?, if_neg hplain, Option.isSome_map] at h
    obtain ⟨start, hfound⟩ := Option.isSome_iff_exists.1 h
    have hrange := List.find?_some hfound
    have hall : (decimalZeros.all fun start =>
        [133, 160, 5760, 8232, 8233, 8239, 8287, 12288].all (fun n => n < start || start + 10 ≤ n) &&
          (8202 < start || start + 10 ≤ 8192)) = true := by decide
    have hstart := List.all_eq_true.1 hall start (List.mem_of_find?_eq_some hfound)
    simp only [List.all_cons, List.all_nil, Bool.and_eq_true, Bool.or_eq_true, decide_eq_true_eq]
      at hrange hstart
    simp only [isBlank, Bool.or_eq_false_iff, Bool.and_eq_false_iff, decide_eq_false_iff_not,
      beq_eq_false_iff_ne]
    omega

end Text

namespace Token

open Text (Solid isBlank)

theorem isBlank_of_isNameChar {c : Char} (h : Text.isNameChar c = true) : isBlank c = false := by
  by_cases hdigit : Text.isPlainDigit c = true
  · exact Text.isBlank_of_isPlainDigit hdigit
  · have hname : Text.isNameStart c = true := by
      rw [Text.isPlainDigit_eq] at hdigit
      simpa [Text.isNameChar, Text.isNameStart, Char.isAlphanum, hdigit] using h
    have hrange := toNat_of_isNameStart hname
    simp only [isBlank, Bool.or_eq_false_iff, Bool.and_eq_false_iff, decide_eq_false_iff_not,
      beq_eq_false_iff_ne]
    omega

theorem Numeral.isBlank_of_mem {cs : List Char} {n : Number.Numeric} (h : Numeral cs n) {c : Char} (hc : c ∈ cs) :
    isBlank c = false := by
  have digits {ds : List Char} (h : Digits ds) (hc : c ∈ ds) : isBlank c = false :=
    Text.isBlank_of_isDecimal (h.2 c hc)
  cases h with
  | whole h => exact digits h hc
  | real h hf hx =>
    rcases List.mem_append.1 hc with hc | hc
    · exact digits h hc
    rcases List.mem_append.1 hc with hc | hc
    · cases hf with
      | none => cases hc
      | point h =>
        rcases List.mem_cons.1 hc with rfl | hc
        · rfl
        · exact digits h hc
    · cases hx with
      | none => cases hc
      | mark hm hs h =>
        rcases List.mem_cons.1 hc with rfl | hc
        · rcases hm with rfl | rfl <;> rfl
        rcases List.mem_append.1 hc with hc | hc
        · rcases hs with rfl | rfl | rfl
          · cases hc
          · rw [List.mem_singleton.1 hc]; rfl
          · rw [List.mem_singleton.1 hc]; rfl
        · exact digits h hc

theorem Spells.solid {w : List Char} {t : Token} (h : Spells w t) : Solid w := by
  cases h with
  | name hc hcs =>
    refine .of_all (List.cons_ne_nil _ _) (List.forall_mem_cons.2 ⟨?_, fun c hc => isBlank_of_isNameChar (hcs c hc)⟩)
    exact isBlank_of_isNameChar (isNameChar_of_isNameStart hc)
  | number h => exact .of_all (Spells.number h).ne_nil fun c hc => h.isBlank_of_mem hc
  | apostrophed s => exact .between rfl _
  | quoted h => exact .between rfl _
  | symbol h =>
    have hall : (symbols.all fun p => p.1.all fun c => !isBlank c) = true := by decide
    refine .of_all (Spells.symbol h).ne_nil ?_
    simpa using List.all_eq_true.1 hall _ (mem_symbols_iff.2 h)

/-! ## Tokens with blanks between them -/

/-- The text of tokens with a blank between them. -/
def spaced (q : Quotation) (ts : List Token) : List Char := [' '].intercalate (ts.map (written q))

theorem Splits.blank {c : Char} {cs : List Char} {ts : List Token} (hc : isSeparator c = true)
    (h : Splits cs ts) : Splits (c :: cs) ts := by
  cases h with
  | done h => exact .done (List.forall_mem_cons.2 ⟨hc, h⟩)
  | token h first later => exact .token (List.forall_mem_cons.2 ⟨hc, h⟩) first later

/-- Tokens with blanks between them are what their text splits into. -/
theorem splits_spaced (q : Quotation) {ts : List Token} (h : ts.all isWritable = true) :
    Splits (spaced q ts) ts := by
  induction ts with
  | nil => exact .done (List.forall_mem_nil _)
  | cons t ts ih =>
    rw [List.all_cons, Bool.and_eq_true] at h
    have spelled := spells_written q h.1
    have first (r : List Char) (hr : Separated r) : read? (written q t ++ r) = some (t, r) := spelled.read_eq hr
    cases ts with
    | nil =>
      have last := first [] (by simp [Separated])
      rw [List.append_nil] at last
      rw [spaced, List.map_singleton, List.intercalate_singleton]
      exact .of_read last (.done (List.forall_mem_nil _))
    | cons t' ts =>
      have later := (ih h.2).blank (c := ' ') rfl
      rw [spaced, List.map_cons, List.map_cons, List.intercalate_cons_cons, List.append_assoc]
      exact .of_read (first _ (by simp [Separated, isSeparator])) later

theorem solid_spaced (q : Quotation) {ts : List Token} (hne : ts ≠ []) (h : ts.all isWritable = true) :
    Solid (spaced q ts) := by
  refine .intercalate _ (by simpa using hne) fun w hw => ?_
  obtain ⟨t, ht, rfl⟩ := List.mem_map.1 hw
  exact (spells_written q (List.all_eq_true.1 h t ht)).solid

end Token

/-! ## Reading -/

namespace Expr

/-- The text of an expression, with a blank between its tokens. -/
def print (q : Quotation) (e : Expr) : String := String.ofList (Token.spaced q e.tokens)

theorem parse_print_of_printable (q : Quotation) {e : Expr} (h : e.Printable) : Expr.parse (e.print q) = .ok e := by
  obtain ⟨p, hp, hp'⟩ := h.derivable.whole
  have hne : e.tokens ≠ [] := by
    obtain ⟨t, ts, ht, -⟩ := p.opens (by simp) (by simp)
    rw [← hp, ht]
    exact List.cons_ne_nil t ts
  refine parse_eq_ok_iff_splits.2 ⟨p, ?_, hp'⟩
  rw [print, String.toList_ofList, (Token.solid_spaced q hne h.all_tokens).trim_eq, hp]
  exact Token.splits_spaced q h.all_tokens

end Expr

/-- A text between quotes. -/
def Quotation.enclose (q : Quotation) (s : String) : String := String.ofList (q.quote s.toList)

theorem Quotation.solid_quote (q : Quotation) (s : List Char) : Text.Solid (q.quote s) := by
  cases q <;> exact .between rfl _

/-- The text of an expression has the value of the expression, in a session that remembers its reading. -/
theorem Context.start_evaluateText {engine : Engine} (ctx : Context) {text : String} {e : Expr}
    (hsolid : Text.Solid text.toList) (hparse : Expr.parse text = .ok e) {session : Session}
    (h : session.Sound engine) :
    ∃ t, session.Keeps engine t ∧ (ctx.evaluateText text).start session = (e.evaluate ctx).start t := by
  have hstrip : Text.strip text = text := by
    rw [Text.strip, hsolid.trim_eq, String.ofList_toList]
  have hne : text ≠ "" := by
    rintro rfl
    exact hsolid.nonempty rfl
  obtain ⟨t, hread, hkeeps⟩ := Run.start_remembered text h
  rw [hparse] at hread
  refine ⟨t, hkeeps, ?_⟩
  rw [evaluateText, hstrip]
  simp only [hne, if_false]
  rw [Run.start_bind_ok hread]
  rfl

theorem Context.evaluateText_quote {engine : Engine} (ctx : Context) (q : Quotation) (s : String)
    {session : Session} (h : session.Sound engine) :
    ∃ t, (ctx.evaluateText (q.enclose s)).start session = (.ok (.text s), t) := by
  have hsolid : Text.Solid (q.enclose s).toList := by
    rw [Quotation.enclose, String.toList_ofList]
    exact q.solid_quote s.toList
  have hprint : (Expr.literal (.text s)).print q = q.enclose s := by
    rw [Expr.print, Expr.tokens, Value.tokens, Token.spaced, List.map_singleton, List.intercalate_singleton]
    rfl
  have hparse := Expr.parse_print_of_printable q (.literal (.text s))
  rw [hprint] at hparse
  obtain ⟨t, -, hvalue⟩ := ctx.start_evaluateText hsolid hparse h
  exact ⟨t, hvalue⟩

namespace Expr

/-- What is written is read back: the text of an expression, with a part in parentheses just where its
tokens could not be derived without them, is read as that expression. So the quotation of any text has
that text for its value. -/
theorem parse_print (q : Quotation) :
    (∀ e : Expr, e.Printable → Expr.parse (e.print q) = .ok e ∧
      ∀ l : Layer, l.enclose e e.tokens = e.tokens ↔ ∃ p : Phrase (.layer l), p.tokens = e.tokens) ∧
    ∀ (s : String) (ctx : Context) (engine : Engine) (session : Session), session.Sound engine →
      ∃ t, (ctx.evaluateText (q.enclose s)).start session = (.ok (.text s), t) :=
  ⟨fun _ h => ⟨parse_print_of_printable q h, h.derivable.enclose_eq_iff⟩,
    fun s ctx _ _ h => ctx.evaluateText_quote q s h⟩

/-- A difference on the right of another, a sign before a disjunction, a number with an exponent next to
a point, a number for a key, and a text with an apostrophe and a backslash. -/
theorem parse_print_nested :
    Expr.parse "a - ( - ( b || 'it''s \\n' ) - \x7b 0 : [ _c ] \x7d [ 1e-07 . d ] )" =
      .ok (.binary .sub (.name "a") (.binary .sub
        (.unary .neg (.logical .or (.name "b") (.literal (.text "it's \\n"))))
        (.index (.object [(.number (.int 0), .array [.name "_c"])])
          (.member (.literal (.number (.float (.round false 1 10000000)))) "d")))) ∧
    ∃ t, (Context.evaluateText ⟨[], [], {}, [], "/", none, [], none, []⟩
        (Quotation.apostrophes.enclose "it's")).start {} = (.ok (.text "it's"), t) := by
  obtain ⟨hread, hquote⟩ := parse_print .apostrophes
  refine ⟨?_, hquote "it's" _ {} _ (Session.sound_fresh ..)⟩
  refine (congrArg Expr.parse ?_).trans (hread _ ?_).1
  · decide +kernel
  · refine .binary _ (.name rfl) (.binary _ (.unary _ (.logical _ (.name rfl) (.literal (.text _)))) ?_)
    refine .index (.object ?_ ?_) (.member (.literal (.number ?_)) rfl)
    · simpa using .number rfl
    · simpa using .array (by simpa using .name rfl)
    · decide +kernel

end Expr
end PipelineTemplate
