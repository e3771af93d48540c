import PipelineTemplate.Directive
import PipelineTemplate.Proofs.Text.Blank
import PipelineTemplate.Proofs.Text.Occurrence

/-!
# Texts without expressions

A text in which no expression begins is no directive, and is no expression as a whole, also when blanks
stand around it. A text that counts as one expression is one from its first visible characters to its
last.
-/

namespace PipelineTemplate

/-! ## Texts that are one expression -/

theorem Directive.inside?_eq_some_iff {cs body : List Char} :
    inside? cs = some body ↔ cs = Embedded.opening ++ (body ++ Embedded.closing) := by
  unfold inside?
  constructor
  · intro h
    obtain ⟨rest, hrest, h⟩ := Option.bind_eq_some_iff.1 h
    obtain ⟨back, hback, rfl⟩ := Option.map_eq_some_iff.1 h
    have hclose := congrArg List.reverse (Text.dropPrefix?_eq_some.1 hback)
    rw [List.reverse_reverse, List.reverse_append] at hclose
    rw [Text.dropPrefix?_eq_some.1 hrest, hclose]
    rfl
  · rintro rfl
    have hclose : Text.dropPrefix? Embedded.closing (body ++ Embedded.closing).reverse = some body.reverse := by
      apply Text.dropPrefix?_eq_some.2
      rw [List.reverse_append]
      rfl
    rw [Text.dropPrefix?_eq_some.2 rfl, Option.bind_some, hclose]
    simp

/-- No line break follows a trimmed text. -/
theorem wholeBody?_strip (s : String) :
    wholeBody? (Text.strip s) = Directive.inside? (Text.trim s.toList) := by
  have hlast := Text.getLast?_trimEnd (s.toList.dropWhile Text.isBlank)
  change (Text.trim s.toList).getLast?.all _ = true at hlast
  unfold wholeBody? Text.strip
  rw [String.toList_ofList]
  cases hinside : Directive.inside? (Text.trim s.toList) with
  | some body => simp only [hinside, Option.some_or]
  | none =>
    simp only [hinside, Option.none_or]
    split
    · next rest hrest =>
      have htrim : Text.trim s.toList = rest.reverse ++ ['\n'] := by
        rw [← List.reverse_reverse (Text.trim s.toList), hrest, List.reverse_cons]
      rw [htrim, List.getLast?_concat] at hlast
      cases hlast
    · rfl

theorem isWholeExpression_strip_iff {s : String} : isWholeExpression (Text.strip s) = true ↔
    ∃ body, Text.trim s.toList = Embedded.opening ++ (body ++ Embedded.closing) ∧
      Text.hasInfix Embedded.opening body = false := by
  unfold isWholeExpression
  rw [wholeBody?_strip]
  constructor
  · intro h
    split at h
    · next body hbody =>
      exact ⟨body, Directive.inside?_eq_some_iff.1 hbody, by simpa using h⟩
    · cases h
  · rintro ⟨body, htext, hopen⟩
    rw [Directive.inside?_eq_some_iff.2 htext]
    simp [hopen]

/-! ## Plain texts -/

/-- No expression begins in a text. -/
def PlainText (s : String) : Prop := Text.hasInfix Embedded.opening s.toList = false

instance (s : String) : Decidable (PlainText s) := inferInstanceAs (Decidable (_ = _))

namespace PlainText

theorem inside?_eq_none {cs : List Char} (h : Text.hasInfix Embedded.opening cs = false) :
    Directive.inside? cs = none := by
  simp [Directive.inside?, Text.dropPrefix?_eq_none h]

variable {s : String} (h : PlainText s)

include h

theorem trim : Text.hasInfix Embedded.opening (Text.trim s.toList) = false :=
  Text.hasInfix_of_infix (Text.trim_infix _) h

theorem ofKey?_eq_none : Directive.ofKey? (.text s) = none := by
  have hi : Directive.inside? (Text.trim s.toList) = none := inside?_eq_none h.trim
  have hb : Directive.beginsLoop (Text.trim s.toList) = false := by
    simp [Directive.beginsLoop, Text.dropPrefix?_eq_none h.trim]
  simp [Directive.ofKey?, Directive.ofText?, hi, hb]

theorem wholeBody?_eq_none : wholeBody? s = none := by
  unfold wholeBody?
  simp only [inside?_eq_none h, Option.none_or]
  split
  · rename_i rest hr
    have hs : s.toList = rest.reverse ++ ['\n'] := by
      rw [← List.reverse_reverse s.toList, hr, List.reverse_cons]
    have hp : rest.reverse <:+: s.toList := hs ▸ List.infix_append' [] rest.reverse ['\n']
    exact inside?_eq_none (Text.hasInfix_of_infix hp h)
  · rfl

theorem strip : PlainText (Text.strip s) := by
  unfold PlainText Text.strip
  rw [String.toList_ofList]
  exact h.trim

theorem not_isWholeExpression : isWholeExpression (Text.strip s) = false := by
  rw [isWholeExpression, h.strip.wholeBody?_eq_none]

end PlainText

end PipelineTemplate
