import PipelineTemplate.Proofs.Yaml.Construction
import PipelineTemplate.Proofs.Yaml.Protected.Written

/-!
# Expressions read with the escapes of their scalars

An expression that was taken out of a scalar is read again in the style of the scalar, and is then the
expression of the text that the scalar was written from.
-/

namespace PipelineTemplate.Yaml

/-- A scalar in quotes alone has its text as its value under the older schema. -/
theorem readOlder_quoted {w cs : List Char} {style : Style} (hstyle : style = .single ∨ style = .double)
    (htokens : ∃ lexemes, tokens w = .ok (lexemes, none) ∧
      lexemes.map Lexeme.token = [.mark .streamStart, Reader.scalarToken style cs, .mark .streamEnd]) :
    readOlder w = .ok (.text (String.ofList cs)) := by
  obtain ⟨line, hnode⟩ := Node.ofText_quoted hstyle htokens .older
  have hvalue : (Node.scalar .text (String.ofList cs) style line).toValue olderRules =
      .ok (.text (String.ofList cs)) := by
    rw [Node.toValue]
    rfl
  rw [readOlder, hnode]
  simp only [bind, Except.bind, Node.documentValue, Node.levelValue_ok _ 0 _ hvalue, Except.mapError, Node.isEndless,
    Bool.false_eq_true, if_false, pure, Except.pure]

namespace Protected

theorem infix_isSingleText {xs ys : List Char} (h : IsSingleText ys) (hi : xs <:+: ys) : IsSingleText xs := by
  obtain ⟨pre, post, rfl⟩ := hi
  rw [List.append_assoc] at h
  have h := h.append
  exact ⟨fun c hc => h.breaks c (List.mem_append_left _ hc), (List.isChain_append.1 h.before).1,
    (List.isChain_append.1 h.behind).1⟩

/-- An expression in quotes is read as it stands in the text. -/
theorem unescape_quoted {n : Nat} (hn : 0 < n) {text span : List Char} {style : Style}
    (hstyle : style = .single ∨ style = .double) (h : Draft.Writable text style) (hi : span <:+: text) :
    unescape (String.ofList (encode (styleEncoder n style) none span)) style = .ok span := by
  have hspan : Draft.Writable span style := by
    refine ⟨?_, h.allowed.imp id fun ha c hc => ha c (hi.subset hc)⟩
    rcases hstyle with rfl | rfl
    · exact infix_isSingleText h.fits hi
    · trivial
  have hread := readOlder_quoted hstyle (Draft.tokens_quoted hn hstyle hspan)
  rw [written_encode] at hread
  rcases hstyle with rfl | rfl
  · simp only [unescape, quote?, String.toList_ofList]
    rw [show '\'' :: encode (styleEncoder n .single) none span ++ ['\''] =
      opener n span .single ++ encode (styleEncoder n .single) none span ++ closer .single from rfl, hread]
    simp [bind, Except.bind, pure, Except.pure]
  · simp only [unescape, quote?, String.toList_ofList]
    rw [show '"' :: encode (styleEncoder n .double) none span ++ ['"'] =
      opener n span .double ++ encode (styleEncoder n .double) none span ++ closer .double from rfl, hread]
    simp [bind, Except.bind, pure, Except.pure]

theorem encode_self {f : Encoder} {cs : List Char} (h : ∀ c ∈ cs, ∀ next, f c next = [c]) (next : Option Char) :
    encode f next cs = cs := by
  induction cs with
  | nil => rfl
  | cons c cs ih =>
    obtain ⟨hc, hcs⟩ := List.forall_mem_cons.1 h
    rw [encode, hc, ih hcs]
    rfl

/-- Literal blocks keep all characters. -/
theorem mem_encode_literal {n : Nat} {next : Option Char} {cs : List Char} {c : Char} (h : c ∈ cs) :
    c ∈ encode (styleEncoder n .literal) next cs := by
  induction cs with
  | nil => exact h
  | cons d cs ih =>
    rw [encode, List.mem_append]
    rcases List.mem_cons.1 h with rfl | h
    · exact .inl List.mem_cons_self
    · exact .inr (ih h)

/-- Without separators an expression on one line stands in a literal block as it is. -/
theorem unescape_literal {n : Nat} {span : List Char} (h : ∀ c ∈ span, ScalarText.isLineBreak c = false) :
    unescape (String.ofList (encode (styleEncoder n .literal) none span)) .literal = .ok span := by
  rw [encode_self fun c hc next => by simp [styleEncoder, h c hc]]
  simp [unescape, quote?]

theorem unescape_plain {n : Nat} {span : List Char} :
    unescape (String.ofList (encode (styleEncoder n .plain) none span)) .plain = .ok span := by
  rw [encode_self (f := styleEncoder n .plain) fun c _ next => rfl]
  simp [unescape, quote?]

end Protected

end PipelineTemplate.Yaml
