import PipelineTemplate.Proofs.Expansion.Step
import PipelineTemplate.Proofs.Expression.Wording

/-!
# Literal text around expressions

A wording loses none of its literal text unless it is taken for one expression, and it is taken for one
exactly when it begins with its only opening braces and ends with closing ones. Then all that stands
between these is evaluated as an expression, also literal text with closing braces of its own.
-/

namespace PipelineTemplate

open Embedded
open Text (isBlank trim trimEnd)

namespace Wording

/-- Apart from blanks, the text begins with the opening braces of its only expression and ends with
closing braces. -/
structure Enclosed (w : Wording) : Prop where
  lead : ∀ c ∈ w.lead, isBlank c = true
  only : ∃ inside behind, w.spans = [(inside, behind)] ∧
    Text.hasInfix opening (inside ++ (closing ++ behind)) = false
  last : closing <:+ trimEnd w.chars

theorem chars_single (lead inside behind : List Char) :
    chars ⟨lead, [(inside, behind)]⟩ = lead ++ (opening ++ (inside ++ (closing ++ behind))) := by
  simp [chars, spansText]

theorem trimEnd_closing (behind : List Char) : trimEnd (closing ++ behind) ≠ [] := by
  intro hnil
  have hblank := Text.trimEnd_eq_nil_iff.1 hnil '\x7d' (by simp [closing])
  exact absurd hblank (by decide)

/-- What an enclosed wording has between its first braces and its last. -/
theorem Enclosed.exists_body {w : Wording} (h : w.Enclosed) (hw : w.Proper) : ∃ body,
    trim w.chars = opening ++ (body ++ closing) ∧ Text.hasInfix opening body = false := by
  obtain ⟨hlead, ⟨inside, behind, hspans, hopen⟩, hlast⟩ := h
  obtain ⟨lead, spans⟩ := w
  simp only at hlead hspans
  subst hspans
  have hend (front : List Char) :
      trimEnd (front ++ (closing ++ behind)) = front ++ trimEnd (closing ++ behind) :=
    Text.trimEnd_append_of_ne_nil (trimEnd_closing behind) front
  have htrim : trim (chars ⟨lead, [(inside, behind)]⟩) =
      opening ++ (inside ++ trimEnd (closing ++ behind)) := by
    rw [chars_single, Text.trim_visible hlead (by simp [opening, show isBlank '$' = false by decide]),
      ← List.append_assoc, hend, List.append_assoc]
  have hne : inside ≠ [] := by
    rintro rfl
    exact hw.spans.1.visible rfl
  have hclose : closing <:+ inside ++ trimEnd (closing ++ behind) := by
    have hlen := List.length_pos_iff.2 hne
    have hlen' := List.length_pos_iff.2 (trimEnd_closing behind)
    refine List.suffix_of_suffix_length_le hlast ⟨lead ++ opening, ?_⟩ ?_
    · have htext : chars ⟨lead, [(inside, behind)]⟩ = lead ++ (opening ++ inside) ++ (closing ++ behind) := by
        simp only [chars_single, List.append_assoc]
      rw [htext, hend]
      simp only [List.append_assoc]
    · rw [List.length_append]
      exact Nat.add_le_add hlen hlen'
  obtain ⟨body, hbody⟩ := hclose
  refine ⟨body, by rw [htrim, hbody], ?_⟩
  have hpart : body <+: inside ++ (closing ++ behind) := by
    have hfront : body <+: inside ++ trimEnd (closing ++ behind) := ⟨closing, hbody⟩
    exact hfront.trans ((List.prefix_append_right_inj inside).2 (Text.isPrefix_trimEnd _))
  exact Text.hasInfix_of_infix hpart.isInfix hopen

/-- Opening braces behind which there are no others, and nothing visible before them, are the only
ones. -/
theorem opening_unique {before before' xs xs' : List Char} (hb : ∀ c ∈ before, isBlank c = true)
    (hxs : Text.hasInfix opening xs = false)
    (h : before' ++ (opening ++ xs') = before ++ (opening ++ xs)) : before' = before ∧ xs' = xs := by
  rcases List.append_eq_append_iff.1 h with ⟨part, hbefore, hpart⟩ | ⟨part, hbefore, hpart⟩
  · cases part with
    | nil => exact ⟨by simpa using hbefore.symm, List.append_cancel_left hpart⟩
    | cons c part =>
      obtain ⟨rfl, -⟩ := List.cons.inj hpart
      exact absurd (hb '$' (by simp [hbefore])) (by decide)
  · cases part with
    | nil => exact ⟨by simpa using hbefore, (List.append_cancel_left hpart).symm⟩
    | cons c part =>
      exfalso
      obtain ⟨-, hpart⟩ := List.cons.inj hpart
      have hin : opening <:+: '\x7b' :: '\x7b' :: xs := ⟨part, xs', by rw [List.append_assoc]; exact hpart.symm⟩
      have hstart {ys : List Char} (h : opening <:+: '\x7b' :: ys) : opening <:+: ys := by
        refine (List.infix_cons_iff.1 h).resolve_left fun hp => ?_
        exact absurd (List.cons_prefix_cons.1 hp).1 (by decide)
      rw [Text.hasInfix_iff.2 (hstart (hstart hin))] at hxs
      cases hxs

theorem closing_foreign : ∀ c ∈ closing, c ∉ opening := by
  intro c hc
  simp only [closing, List.mem_cons, List.not_mem_nil, or_false, or_self] at hc
  rw [hc]
  decide

theorem Enclosed.of_body {w : Wording} (hs : w.spans ≠ []) {body : List Char}
    (htrim : trim w.chars = opening ++ (body ++ closing)) (hopen : Text.hasInfix opening body = false) :
    w.Enclosed := by
  obtain ⟨before, after, hbefore, hafter, hchars⟩ := Text.exists_trim w.chars
  rw [htrim] at hchars
  have hforeign : ∀ c ∈ closing ++ after, c ∉ opening := by
    intro c hc hmem
    rcases List.mem_append.1 hc with hc | hc
    · exact closing_foreign c hc hmem
    · have hblank := hafter c hc
      rw [opening_visible c hmem] at hblank
      cases hblank
  have hrest : Text.hasInfix opening (body ++ (closing ++ after)) = false := by
    rw [Bool.eq_false_iff, ne_eq, Text.hasInfix_iff] at hopen ⊢
    intro hin
    exact hopen (Text.infix_of_append_foreign (by decide) hforeign hin)
  obtain ⟨lead, spans⟩ := w
  obtain ⟨⟨inside, behind⟩, later, rfl⟩ := List.exists_cons_of_ne_nil hs
  obtain ⟨rfl, hbody⟩ : lead = before ∧
      inside ++ (closing ++ (behind ++ spansText later)) = body ++ (closing ++ after) := by
    apply opening_unique hbefore hrest
    simpa [chars, spansText] using hchars
  have hlater : later = [] := by
    cases later with
    | nil => rfl
    | cons span later =>
      exfalso
      have hin : opening <:+: inside ++ (closing ++ (behind ++ spansText (span :: later))) :=
        ⟨inside ++ (closing ++ behind), span.1 ++ (closing ++ (span.2 ++ spansText later)), by
          simp only [spansText, List.append_assoc]⟩
      rw [hbody] at hin
      rw [Text.hasInfix_iff.2 hin] at hrest
      cases hrest
  subst hlater
  rw [spansText, List.append_nil] at hbody
  refine ⟨hbefore, ⟨inside, behind, rfl, by rw [hbody]; exact hrest⟩, ?_⟩
  rw [hchars, Text.trimEnd_blanks hafter]
  have hend : trimEnd closing = closing := rfl
  rw [← List.append_assoc opening, ← List.append_assoc lead,
    Text.trimEnd_append_of_ne_nil (by rw [hend]; decide), hend]
  exact List.suffix_append _ _

theorem isWholeExpression_wording {w : Wording} (hw : w.Proper) (hs : w.spans ≠ []) :
    isWholeExpression (Text.strip w.text) = true ↔ w.Enclosed := by
  rw [isWholeExpression_strip_iff, text, String.toList_ofList]
  constructor
  · rintro ⟨body, htrim, hopen⟩
    exact .of_body hs htrim hopen
  · intro h
    exact h.exists_body hw

end Wording

namespace Expansion

variable {w : Wording}

/-- An enclosed wording is evaluated as one expression, from its first braces to its last. -/
theorem expandScalar_enclosed (hw : w.Proper) (hs : w.spans ≠ []) (h : w.Enclosed) :
    ∃ body, trim w.chars = opening ++ (body ++ closing) ∧
      ∀ (engine : Engine) (keep : Keeper) (mode : Mode) (ctx : Context),
        expandScalar engine keep mode ctx (.text w.text) = (do
          let result ← ctx.evaluateText (String.ofList (trim body))
          expandResult engine keep mode ctx result) := by
  obtain ⟨body, htrim, -⟩ := h.exists_body hw
  refine ⟨body, htrim, ?_⟩
  intro engine keep mode ctx
  have hinside : Directive.inside? (trim w.text.toList) = some body := by
    rw [Wording.text, String.toList_ofList]
    exact Directive.inside?_eq_some_iff.2 htrim
  rw [expandScalar_whole ((Wording.isWholeExpression_wording hw hs).2 h), expressionBody, wholeBody?_strip,
    hinside, Option.getD_some]

/-- Any other wording keeps its literal text around the texts of its expressions. -/
theorem expandScalar_open (hw : w.Proper) (hs : w.spans ≠ []) (h : ¬w.Enclosed) (engine : Engine)
    (keep : Keeper) (mode : Mode) (ctx : Context) :
    expandScalar engine keep mode ctx (.text w.text) = (do return .text (← ctx.fill w)) := by
  have hpartial : isWholeExpression (Text.strip w.text) = false := by
    rw [Bool.eq_false_iff, ne_eq, Wording.isWholeExpression_wording hw hs]
    exact h
  rw [expandScalar_partial hpartial, Context.substitute_wording hw]

/-- Every text without empty braces is a wording. If it has expressions, all its literal text stays
around their texts, unless the text is enclosed: then it is evaluated as one expression, from its first
braces to its last, with the literal text that stands between them. -/
theorem expandScalar_wording {s : String} (h : Wording.Legible s.toList) :
    ∃ w : Wording, w.text = s ∧ w.Proper ∧ (∀ ctx : Context, ctx.substitute s = ctx.fill w) ∧
      (w.spans ≠ [] →
        (isWholeExpression (Text.strip s) = true ↔ w.Enclosed) ∧
        (¬w.Enclosed → ∀ (engine : Engine) (keep : Keeper) (mode : Mode) (ctx : Context),
          expandScalar engine keep mode ctx (.text s) = (do return .text (← ctx.fill w))) ∧
        (w.Enclosed → ∃ body, trim s.toList = opening ++ (body ++ closing) ∧
          ∀ (engine : Engine) (keep : Keeper) (mode : Mode) (ctx : Context),
            expandScalar engine keep mode ctx (.text s) = (do
              let result ← ctx.evaluateText (String.ofList (trim body))
              expandResult engine keep mode ctx result))) := by
  obtain ⟨w, hchars, hw⟩ := Wording.exists_wording h
  have htext : w.text = s := by
    unfold Wording.text
    rw [hchars, String.ofList_toList]
  refine ⟨w, htext, hw, ?_, ?_⟩
  · intro ctx
    rw [← htext]
    exact Context.substitute_wording hw
  · intro hs
    rw [← hchars, ← htext]
    exact ⟨Wording.isWholeExpression_wording hw hs, expandScalar_open hw hs, expandScalar_enclosed hw hs⟩

theorem expandScalar_wording_braces : Wording.Legible "$\x7b\x7b a \x7d\x7d:\x7b\x7b .T \x7d\x7d".toList ∧
    ∃ w : Wording, w.text = "$\x7b\x7b a \x7d\x7d:\x7b\x7b .T \x7d\x7d" ∧ w.Proper := by
  have hlegible : Wording.Legible "$\x7b\x7b a \x7d\x7d:\x7b\x7b .T \x7d\x7d".toList := by decide
  obtain ⟨w, htext, hw, -, -⟩ := expandScalar_wording hlegible
  exact ⟨hlegible, w, htext, hw⟩

end Expansion
end PipelineTemplate
