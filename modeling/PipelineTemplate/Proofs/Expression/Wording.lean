import PipelineTemplate.Proofs.Expression.Embedding
import Mathlib.Data.List.Infix

/-!
# Wordings

A wording is a text that is written around expressions. Main statements: every text whose braces are
not empty is a wording; its expressions are replaced by their values from left to right while all other
characters stay; and an expression of the grammar can stand in any text exactly when it is on one line
and has no closing braces in it.
-/

namespace PipelineTemplate

open Text (isBlank trim)

/-- A text around expressions: what stands before the first of them and, for each, what is inside its
braces and what stands behind them. -/
structure Wording where
  lead : List Char
  spans : List (List Char × List Char)

namespace Wording

open Embedded

def spansText : List (List Char × List Char) → List Char
  | [] => []
  | (inside, behind) :: spans => opening ++ (inside ++ (closing ++ (behind ++ spansText spans)))

def chars (w : Wording) : List Char := w.lead ++ spansText w.spans

def text (w : Wording) : String := String.ofList w.chars

/-- Each expression is delimited, and no other begins behind it. -/
def SpansProper : List (List Char × List Char) → Prop
  | [] => True
  | (inside, behind) :: spans => Delimited inside ∧ Bare behind (spansText spans) ∧ SpansProper spans

/-- The expressions of a wording are those that are written as such. -/
structure Proper (w : Wording) : Prop where
  lead : Bare w.lead (spansText w.spans)
  spans : SpansProper w.spans

def spansPieces : List (List Char × List Char) → List Piece
  | [] => []
  | (inside, behind) :: spans =>
    .expression (String.ofList (trim inside)) :: (behind.map .char ++ spansPieces spans)

theorem pieces_spansText {spans : List (List Char × List Char)} (h : SpansProper spans) :
    pieces 0 (spansText spans) = spansPieces spans := by
  induction spans with
  | nil => rfl
  | cons span spans ih =>
    obtain ⟨hinside, hbehind, hspans⟩ := h
    unfold spansText spansPieces
    rw [pieces_expression hinside, pieces_of_bare hbehind, ih hspans]

/-- A wording is taken apart as it was put together. -/
theorem Proper.pieces {w : Wording} (h : w.Proper) :
    Embedded.pieces 0 w.chars = w.lead.map .char ++ spansPieces w.spans := by
  unfold chars
  rw [pieces_of_bare h.lead, pieces_spansText h.spans]

end Wording

namespace Context

/-- The text that expressions and what stands behind them come to, evaluated from left to right. -/
def spansFilled (ctx : Context) : List (List Char × List Char) → Run (List Char)
  | [] => return []
  | (inside, behind) :: spans => do
    let value ← ctx.pieceText (.expression (String.ofList (trim inside)))
    return value ++ (behind ++ (← ctx.spansFilled spans))

/-- The wording with its expressions replaced by the texts of their values. -/
def fill (ctx : Context) (w : Wording) : Run String := do
  return String.ofList (w.lead ++ (← ctx.spansFilled w.spans))

variable {ctx : Context}

theorem piecesText_chars (xs : List Char) (rest : List Embedded.Piece) :
    ctx.piecesText (xs.map .char ++ rest) = (do return xs ++ (← ctx.piecesText rest)) := by
  induction xs with
  | nil => simp
  | cons x xs ih =>
    rw [List.map_cons, List.cons_append, piecesText, ih]
    simp [pieceText]

theorem piecesText_spansPieces (spans : List (List Char × List Char)) :
    ctx.piecesText (Wording.spansPieces spans) = ctx.spansFilled spans := by
  induction spans with
  | nil => rfl
  | cons span spans ih =>
    unfold Wording.spansPieces spansFilled
    rw [piecesText, piecesText_chars, ih]
    simp

theorem substitute_wording {w : Wording} (h : w.Proper) : ctx.substitute w.text = ctx.fill w := by
  unfold substitute fill Wording.text
  rw [String.toList_ofList]
  by_cases hopen : Text.hasInfix Embedded.opening w.chars = true
  · rw [if_pos hopen, h.pieces, piecesText_chars, piecesText_spansPieces]
    simp
  · rw [if_neg hopen]
    cases hspans : w.spans with
    | nil =>
      unfold Wording.chars
      rw [hspans]
      simp [Wording.spansText, spansFilled]
    | cons span spans =>
      exfalso
      apply hopen
      rw [Text.hasInfix_iff, Wording.chars, hspans]
      exact ⟨w.lead, _, by rw [Wording.spansText, List.append_assoc]⟩

end Context

namespace Wording

open Embedded

/-! ## Every text is a wording -/

/-- No braces in a text are empty. -/
def Legible (cs : List Char) : Prop :=
  ∀ ys ∈ cs.tails, ∀ xs ∈ Text.dropPrefix? opening ys, ∀ p ∈ Text.cut? closing xs, trim p.1 ≠ []

instance (cs : List Char) : Decidable (Legible cs) := inferInstanceAs (Decidable (∀ _ ∈ _, _))

theorem Legible.suffix {cs ds : List Char} (h : Legible cs) (hd : ds <:+ cs) : Legible ds := by
  intro ys hys
  exact h ys ((List.mem_tails _ _).2 (((List.mem_tails _ _).1 hys).trans hd))

theorem exists_wording {cs : List Char} (h : Legible cs) : ∃ w : Wording, w.chars = cs ∧ w.Proper := by
  induction hn : cs.length using Nat.strongRecOn generalizing cs with
  | ind n ih =>
    cases cs with
    | nil => exact ⟨⟨[], []⟩, rfl, fun y ys hys => absurd (List.suffix_nil.1 hys) (by simp), trivial⟩
    | cons c cs =>
      by_cases hstray : Stray (c :: cs)
      · obtain ⟨w, rfl, hw⟩ := ih cs.length (by simp [← hn]) (h.suffix (List.suffix_cons c cs)) rfl
        exact ⟨⟨c :: w.lead, w.spans⟩, rfl, hw.lead.cons hstray, hw.spans⟩
      · unfold Stray at hstray
        push Not at hstray
        obtain ⟨xs, inside, more, htext, hcut, hline⟩ := hstray
        have hxs := Text.cut?_eq_some hcut
        have hfirst := Text.cut?_congr hcut []
        rw [List.append_nil] at hfirst
        have hinside : Delimited inside :=
          ⟨h (c :: cs) (by simp) xs (Text.dropPrefix?_eq_some.2 htext) (inside, more) hcut, hline, hfirst⟩
        have hmore : more <:+ c :: cs := ⟨opening ++ (inside ++ closing), by simp [htext, hxs]⟩
        have hlt : more.length < n := by
          rw [← hn, htext, hxs]
          simp [opening, closing]
          omega
        obtain ⟨w, rfl, hw⟩ := ih more.length hlt (h.suffix hmore) rfl
        refine ⟨⟨[], (inside, w.lead) :: w.spans⟩, ?_, ?_, hinside, hw.lead, hw.spans⟩
        · rw [htext, hxs]
          simp [chars, spansText]
        · intro y ys hys
          exact absurd (List.suffix_nil.1 hys) (by simp)

end Wording

/-! ## One expression in a text -/

namespace Embedded

/-- The text of an expression between braces. -/
def braced (e : String) : String := "$\x7b\x7b " ++ e ++ " \x7d\x7d"

/-- The text of an expression can stand in other texts: it is on one line and has no closing braces. -/
structure Embeddable (e : String) : Prop where
  line : '\n' ∉ (Text.strip e).toList
  closed : Text.hasInfix closing (Text.strip e).toList = false

theorem braced_toList (e : String) :
    (braced e).toList = opening ++ (' ' :: (e.toList ++ [' ']) ++ closing) := by
  simp [braced, opening, closing]

theorem trim_spaced (cs : List Char) : trim (' ' :: (cs ++ [' '])) = trim cs := by
  have hspace : ∀ c ∈ [' '], isBlank c = true := List.forall_mem_singleton.2 (by decide)
  exact Text.trim_blanks hspace hspace

theorem wholeBody?_braced (e : String) : wholeBody? (braced e) = some (' ' :: (e.toList ++ [' '])) := by
  have hinside := Directive.inside?_eq_some_iff.2 (braced_toList e)
  unfold wholeBody?
  simp only [hinside, Option.some_or]

/-- As a whole text, an expression between braces has all that stands between them for its body. -/
theorem expressionBody_braced (e : String) : expressionBody (braced e) = Text.strip e := by
  unfold expressionBody
  rw [wholeBody?_braced, Option.getD_some, trim_spaced]
  rfl

theorem opening_visible : ∀ c ∈ opening, isBlank c = false := by
  intro c hc
  simp only [opening, List.mem_cons, List.not_mem_nil, or_false] at hc
  rcases hc with rfl | rfl | rfl <;> decide

theorem isWholeExpression_braced (e : String) : isWholeExpression (braced e) = true ↔ PlainText e := by
  have hspaced : Text.hasInfix opening (' ' :: (e.toList ++ [' '])) = Text.hasInfix opening e.toList := by
    rw [Bool.eq_iff_iff, Text.hasInfix_iff, Text.hasInfix_iff]
    constructor
    · intro h
      have htrim := Text.infix_trim (by decide) opening_visible h
      rw [trim_spaced] at htrim
      exact htrim.trans (Text.trim_infix _)
    · intro h
      exact h.trans ⟨[' '], [' '], by simp⟩
  unfold isWholeExpression PlainText
  rw [wholeBody?_braced]
  simp [hspaced]

variable {p q e : String} {tree : Expr}

/-- The wording that an expression between two plain texts is. -/
def between (p e q : String) : Wording := ⟨p.toList, [(' ' :: (e.toList ++ [' ']), q.toList)]⟩

theorem text_between (p e q : String) : (between p e q).text = p ++ braced e ++ q := by
  apply String.toList_injective
  simp [between, Wording.text, Wording.chars, Wording.spansText, braced_toList]

theorem proper_between (hp : PlainText p) (hq : PlainText q) (hne : trim e.toList ≠ []) (he : Embeddable e) :
    (between p e q).Proper := by
  obtain ⟨hline, hclosed⟩ := he
  unfold Text.strip at hline hclosed
  rw [String.toList_ofList] at hline hclosed
  refine ⟨bare_of_plain hp (by simp [between, Wording.spansText, opening]), ?_⟩
  exact ⟨delimited_spaced hne hline hclosed, bare_of_plain hq (by simp [Wording.spansText]), trivial⟩

/-- Only what can stand in other texts is taken out of them as an expression. -/
theorem embeddable_of_pieces (he : Expr.parse e = .ok tree) {xs : List Char} {rest : List Piece}
    (h : pieces 0 (opening ++ xs) = .expression (Text.strip e) :: rest) : Embeddable e := by
  unfold Text.strip at h
  cases hspan : span? xs with
  | none =>
    have hnone : (Text.dropPrefix? opening (opening ++ xs)).bind span? = none := by
      rw [Text.dropPrefix?_eq_some.2 rfl]
      exact hspan
    change (Text.dropPrefix? opening ('$' :: '\x7b' :: '\x7b' :: xs)).bind span? = none at hnone
    change pieces 0 ('$' :: '\x7b' :: '\x7b' :: xs) = _ at h
    rw [pieces, hnone] at h
    cases h
  | some p =>
    obtain ⟨body, length⟩ := p
    rw [pieces_opening hspan] at h
    obtain ⟨hbody, -⟩ := List.cons.inj h
    obtain rfl : body = trim e.toList := String.ofList_injective (Piece.expression.inj hbody)
    have hne := Expr.trim_ne_nil he
    have hvisible : ∃ c ∈ trim e.toList, isBlank c = false := by
      have hlast := (Text.solid_trim hne).last
      rw [List.getLast?_eq_some_getLast hne] at hlast
      exact ⟨_, List.getLast_mem hne, by simpa using hlast⟩
    obtain ⟨hline, hfront⟩ := of_span? hspan hvisible
    refine ⟨by simpa [Text.strip] using hline, ?_⟩
    unfold Text.strip
    rw [String.toList_ofList, Bool.eq_false_iff, ne_eq, Text.hasInfix_iff]
    rintro ⟨front, back, hsplit⟩
    rw [List.append_assoc] at hsplit
    obtain rfl := hfront front back hsplit.symm
    exact Expr.not_brace_first he _ hsplit.symm

theorem evaluateText_strip (ctx : Context) (e : String) : ctx.evaluateText (Text.strip e) = ctx.evaluateText e := by
  have hstrip : Text.strip (Text.strip e) = Text.strip e := by
    simp only [Text.strip, String.toList_ofList, Text.trim_trim]
  unfold Context.evaluateText
  rw [hstrip]

theorem fill_between (ctx : Context) : ctx.fill (between p e q) = (do
    match (← ctx.evaluateText e).embeddedText? with
    | some r => return p ++ r ++ q
    | none => throw .notSerializable) := by
  unfold Context.fill between
  simp only [Context.spansFilled, Context.pieceText, trim_spaced, bind_assoc, pure_bind, List.append_nil]
  change (ctx.evaluateText (Text.strip e) >>= _) = _
  rw [evaluateText_strip]
  refine bind_congr fun value => ?_
  cases value.embeddedText? with
  | none => rfl
  | some r =>
    simp only [pure_bind]
    refine congrArg pure (String.toList_injective ?_)
    simp

end Embedded
end PipelineTemplate
