import PipelineTemplate.CommandLine.Assignment
import PipelineTemplate.Proofs.Yaml.Protected.Comment
import PipelineTemplate.Proofs.Yaml.Protected.Quotation
import PipelineTemplate.Proofs.Yaml.Scalar.Core
import PipelineTemplate.Template.Resolution

/-!
# What loading can end in

A text has a value or is no well-formed document, and those who load it are ready for either. What else can
happen comes from a tag that is written on a node and asks for something that the node is not, from an escape
that names no character, from an expression that does not stand in its quotes as it is, or from a document
that contains itself.
-/

namespace PipelineTemplate.Yaml

theorem error_of_bind {α β : Type} {x : Except Fault α} {g : α → Except Fault β} {f : Fault}
    (h : x >>= g = .error f) : x = .error f ∨ ∃ a, x = .ok a ∧ g a = .error f := by
  cases x with
  | error e =>
    cases h
    exact .inl rfl
  | ok a => exact .inr ⟨a, rfl, h⟩

/-! ## Expressions -/

namespace Protected

variable {spans : List String} {style : Style} {f : Fault}

/-- Putting expressions back fails only where one of them cannot be read in the quotes around it. -/
theorem restoreMarks_error {skip : Nat} {cs : List Char} (h : restoreMarks spans style skip cs = .error f) :
    ∃ span ∈ spans, unescape span style = .error f := by
  induction cs generalizing skip with
  | nil =>
    rw [restoreMarks] at h
    cases h
  | cons c cs ih =>
    cases skip with
    | succ skip =>
      rw [restoreMarks] at h
      exact ih h
    | zero =>
      rw [restoreMarks] at h
      split at h
      · rcases error_of_bind h with h | ⟨rest, -, h⟩
        · exact ih h
        · cases h
      · split at h
        · rcases error_of_bind h with h | ⟨rest, -, h⟩
          · exact ih h
          · cases h
        next span hspan =>
          rcases error_of_bind h with h | ⟨text, -, h⟩
          · exact ⟨span, List.mem_of_getElem? hspan, h⟩
          · rcases error_of_bind h with h | ⟨rest, -, h⟩
            · exact ih h
            · cases h

theorem restored_error {text : String} (h : restored text spans style = .error f) :
    ∃ span ∈ spans, unescape span style = .error f := by
  rcases error_of_bind h with h | ⟨cs, -, h⟩
  · exact restoreMarks_error h
  · cases h

/-- An expression on one line that has neither quotes nor, between quotation marks, backslashes. -/
def IsStraightIn (double : Bool) (span : List Char) : Prop := IsLine span ∧ ∀ c ∈ span, quotedChar double c = [c]

/-- Such an expression stands between quotes as it is. -/
theorem unescape_straight {double : Bool} {span : List Char} (h : IsStraightIn double span) :
    unescape (String.ofList span) (Cursor.quoteStyle double) = .ok span := by
  have hline := @unescape_line double span h.1
  have hself : encode (quoteEncoder double) none span = span := encode_self (fun c hc _ => h.2 c hc) none
  rwa [hself] at hline

theorem unescape_error {span : String} (h : unescape span style = .error f) :
    ∃ double, style = Cursor.quoteStyle double ∧ ¬IsStraightIn double span.toList := by
  have hquoted (double : Bool) (hread : unescape span (Cursor.quoteStyle double) = .error f) :
      ¬IsStraightIn double span.toList := by
    intro hstraight
    have hok := unescape_straight hstraight
    rw [String.ofList_toList, hread] at hok
    cases hok
  cases style with
  | single => exact ⟨false, rfl, hquoted false h⟩
  | double => exact ⟨true, rfl, hquoted true h⟩
  | plain => cases h
  | literal => cases h
  | folded => cases h

end Protected

/-! ## Nodes -/

namespace Node

/-- The tag that a node has from its form. A scalar that is not plain or ends with a line break is a text. -/
def formTag : Node → Option Tag
  | .scalar _ text style _ =>
    some (if style = .plain ∧ text.toList.getLast? ≠ some '\n' then Schema.core.tagOf text else .text)
  | .sequence .. => some .sequence
  | .mapping .. => some .mapping
  | .enclosing .. => none

variable {spans : List String} {f : Fault}

theorem rulesText_error {text : String} {style : Style} (h : (coreRules spans).text text style = .error f) :
    Protected.restored text spans style = .error f := by
  rcases error_of_bind h with h | ⟨a, -, h⟩
  · exact h
  · cases h

theorem plainValue_text {text : String} {style : Style} {line : Nat}
    (h : plainValue (coreRules spans) (.scalar .text text style line) = .error f) :
    Protected.restored text spans style = .error f := by
  rcases error_of_bind h with h | ⟨a, ha, h⟩
  · cases h
  · cases ha
    exact rulesText_error h

/-- A node with the tag that it has from its form fails only where its expressions do. -/
theorem plainValue_formTag {node : Node} (hform : ¬node.IsCollection) (htag : node.tag = node.formTag)
    (h : node.plainValue (coreRules spans) = .error f) :
    Malformed f ∨ ∃ tag text style line, node = .scalar tag text style line ∧
      Protected.restored text spans style = .error f := by
  cases node with
  | scalar tag text style line =>
    obtain rfl := Option.some.inj htag
    split at h
    next hplain =>
      rcases plainValue_tagOf spans hplain.2 style line with htext | hmerge | ⟨v, hv⟩
      · rw [htext] at h
        exact .inr ⟨_, text, style, line, rfl, plainValue_text h⟩
      · rw [hmerge] at h
        cases h
        exact .inl ⟨_, rfl⟩
      · rw [hv] at h
        cases h
    · exact .inr ⟨_, text, style, line, rfl, plainValue_text h⟩
  | sequence tag items line => exact absurd (Option.some.inj htag) hform
  | mapping tag pairs line => exact absurd (Option.some.inj htag) hform
  | enclosing inSequences line =>
    cases h
    exact .inl ⟨_, rfl⟩

end Node

namespace Protected

/-! ## Texts -/

/-- Why loading a text fails with something else than that it is malformed. -/
inductive Uncaught (text : String) : Fault → Prop
  /-- A tag asks for what its node is not. -/
  | tag {node part : Node} {f : Fault} (hnode : Node.ofText .core (protect text).1.toList = .ok (some node))
      (hpart : part.Within node) (htag : part.tag ≠ part.formTag)
      (hvalue : part.plainValue (coreRules (protect text).2) = .error f) : Uncaught text f
  /-- An escape names no character. -/
  | escape {digits : List Char} (hlength : digits.length = 8) (hhex : digits.all Text.isHex = true)
      (hcode : 0x10FFFF < Text.hexNumeral digits) (hin : '\\' :: 'U' :: digits <:+: (protect text).1.toList) :
      Uncaught text (.noCharacter (0x7FFFFFFF < Text.hexNumeral digits))
  /-- An expression of a scalar does not stand as it is between the quotes of the scalar. -/
  | expression {node : Node} {tag : Tag} {scalar span : String} {double : Bool} {line : Nat} {f : Fault}
      (hnode : Node.ofText .core (protect text).1.toList = .ok (some node))
      (hpart : (Node.scalar tag scalar (Cursor.quoteStyle double) line).Within node)
      (hscalar : restored scalar (protect text).2 (Cursor.quoteStyle double) = .error f)
      (hspan : span ∈ (protect text).2) (hstraight : ¬IsStraightIn double span.toList)
      (hread : unescape span (Cursor.quoteStyle double) = .error f) : Uncaught text f
  /-- A sequence contains itself. -/
  | endless {node : Node} (hnode : Node.ofText .core (protect text).1.toList = .ok (some node))
      (hendless : node.isEndless = true) : Uncaught text .endless

section

variable {text : String} {node : Node} {f : Fault}
  (hnode : Node.ofText .core (protect text).1.toList = .ok (some node))
include hnode

theorem uncaught_of_restored {tag : Tag} {scalar : String} {style : Style} {line : Nat}
    (hpart : (Node.scalar tag scalar style line).Within node)
    (h : restored scalar (protect text).2 style = .error f) : Uncaught text f := by
  obtain ⟨span, hspan, hread⟩ := restored_error h
  obtain ⟨double, rfl, hstraight⟩ := unescape_error hread
  exact .expression hnode hpart h hspan hstraight hread

theorem uncaught_of_faulty (h : node.Faulty (coreRules (protect text).2) f) : Node.Malformed f ∨ Uncaught text f := by
  rcases h with h | ⟨part, hpart, h⟩
  · exact .inl h
  cases h with
  | plain hform hvalue =>
    by_cases htag : part.tag = part.formTag
    · rcases Node.plainValue_formTag hform htag hvalue with h | ⟨tag, scalar, style, line, rfl, h⟩
      · exact .inl h
      · exact .inr (uncaught_of_restored hnode hpart h)
    · exact .inr (.tag hnode hpart htag hvalue)
  | defaultKey h => exact .inr (uncaught_of_restored hnode hpart (Node.rulesText_error h))

end

theorem uncaught_of_cut {text : String} {ls : List Lexeme} {failure : Option Fault}
    (h : tokens (protect text).1.toList = .ok (ls, failure)) :
    Node.Malformed (Node.cutOf failure) ∨ Uncaught text (Node.cutOf failure) := by
  cases failure with
  | none => exact .inl ⟨_, rfl⟩
  | some f =>
    change Node.Malformed f ∨ Uncaught text f
    cases tokens_excused h f rfl with
    | malformed e => exact .inl ⟨e, rfl⟩
    | escape hlength hhex hcode hin => exact .inr (.escape hlength hhex hcode hin)

/-- A text that is not malformed is read, but for few causes. -/
theorem uncaught_of_read {text : String} {f : Fault} (h : read text = .error f) :
    Node.Malformed f ∨ Uncaught text f := by
  rw [read_eq_valueOf] at h
  cases htokens : tokens (protect text).1.toList with
  | error g =>
    rw [tokens] at htokens
    split at htokens
    · cases htokens
    next hallowed =>
      rw [valueOf, Node.ofText, tokens, if_neg hallowed] at h
      cases h
      exact .inl ⟨_, rfl⟩
  | ok p =>
    obtain ⟨ls, failure⟩ := p
    -- the text is compared with itself, for the causes alone
    have htwin := valueOf_twin (coreRules (protect text).2) htokens htokens rfl rfl
    rw [h] at htwin
    cases htwin with
    | error related =>
      rcases related.2 with (hf | hf) | ⟨node, hnode, hf | ⟨hf, hendless⟩⟩
      · exact .inl hf
      · rw [hf]
        exact uncaught_of_cut htokens
      · exact uncaught_of_faulty hnode hf
      · rw [hf]
        exact .inr (.endless hnode hendless)

end Protected

end PipelineTemplate.Yaml
