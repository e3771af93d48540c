import PipelineTemplate.Proofs.Yaml.Protected.Division
import PipelineTemplate.Proofs.Yaml.Scalar.Line
import PipelineTemplate.Proofs.Yaml.Scalar.Style

/-!
# Expressions in quoted values

A text on one line that is put between quotes as the value of an entry is loaded as it is, whatever
expressions, quotes and indicators it has and whether or not its expressions end: what is taken out of the
quoted text are the expressions of the text, in quotes, and between quotes they are read as themselves.
-/

namespace PipelineTemplate.Yaml

open Reader (scalarToken)

/-- A document with one entry, the text on one line in quotes as its value. -/
def entryLine (double newline : Bool) (cs : List Char) : List Char :=
  ['k', ':', ' '] ++ quotedLine double cs ++ if newline then ['\n'] else []

/-- The entry of such a document. -/
def entryDraft (double : Bool) (cs : List Char) : Draft :=
  .mapping [(⟨.plain, ['k'], true⟩, .scalar (Cursor.quoteStyle double) cs)]

theorem isKey_k : Reader.IsKey 2 ['k'] .plain :=
  ⟨ScalarText.isPlain_of_allowsPlain (by decide) (by decide), by decide, by decide, by decide⟩

section

variable {double newline : Bool} {cs : List Char} (hcs : IsLine cs)
include hcs

theorem allowed_quotedChars : Allowed (cs.flatMap (quotedChar double)) := by
  intro d hd
  obtain ⟨c, hc, hd⟩ := List.mem_flatMap.1 hd
  rcases mem_quotedChar hd with rfl | rfl
  · exact (hcs d hc).1
  · decide

theorem allowed_entryLine : Allowed (entryLine double newline cs) := by
  have hquote : isAllowed (Cursor.quoteMark double) = true := by cases double <;> decide
  have hline : Allowed (quotedLine double cs) :=
    ((allowed_quotedChars hcs).append (allowed_nil.cons hquote)).cons hquote
  refine Allowed.append (Allowed.append (forall_mem_of_all (by decide)) hline) ?_
  cases newline with
  | false => exact allowed_nil
  | true => exact allowed_nil.cons (by decide)

end

namespace Draft

open Reader

theorem tokens_entryLine (double newline : Bool) {cs : List Char} (hcs : IsLine cs) :
    ∃ lexemes, Yaml.tokens (entryLine double newline cs) = .ok (lexemes, none) ∧
      lexemes.map Lexeme.token = .mark .streamStart :: tokens (entryDraft double cs) ++ [.mark .streamEnd] := by
  have hbreaks : ∀ c ∈ cs, isBreak c = false := fun c hc => (hcs c hc).2
  have hbegins : Begins (quotedLine double cs ++ if newline then ['\n'] else []) :=
    begins_cons.2 (by cases double <;> decide)
  obtain ⟨harrive, hstart⟩ := @start_stands (entryLine double newline cs) (begins_cons.2 (by decide))
  have htext : entryLine double newline cs = (writtenIn 2 ['k'] .plain).text ++
      ':' :: ' ' :: (quotedLine double cs ++ if newline then ['\n'] else []) := rfl
  rw [htext] at hstart
  obtain ⟨a, column, hruns, hcolumn, ha⟩ := runs_key_inline (by decide) isKey_k hstart (by decide) rfl hbegins
  -- without a line break the text ends with the value, which is then still a candidate for a key
  obtain ⟨b, k, ka, hmove, hb, hloose⟩ : ∃ b k ka, Moves a b ∧
      Stands { b with candidates := [] } [] k ([0].map Int.ofNat ++ [-1]) (scalarToken (Cursor.quoteStyle double) cs ::
        [.mark .value, scalarToken .plain ['k'], .mark .key, .mark .blockMapping, .mark .streamStart]) ka ∧
      ∀ p ∈ b.candidates, p.2.required = false := by
    cases newline with
    | false =>
      have hline : quotedLine double cs ++ [] =
          Cursor.quoteMark double :: (cs.flatMap (quotedChar double) ++ [Cursor.quoteMark double]) := List.append_nil _
      rw [if_neg Bool.false_ne_true, hline] at ha
      exact moves_quoted_last (readToken_quoted ha) ha (Cursor.quotedRest_line hbreaks (by simp))
        (Int.ofNat_lt.2 hcolumn) (by decide)
    | true =>
      have hline : quotedLine double cs ++ ['\n'] = Cursor.quoteMark double ::
          (cs.flatMap (quotedChar double) ++ Cursor.quoteMark double :: Cursor.lineTail false 0 []) := by
        simp [quotedLine, lineTail_false]
      rw [if_pos rfl, hline] at ha
      obtain ⟨b, hmove, hb⟩ := moves_quoted (readToken_quoted ha) ha
        (Cursor.quotedRest_line hbreaks (by simp [lineTail_false])) (by omega) begins_nil
      exact ⟨b, 0, true, hmove, hb.free, hb.loose⟩
  obtain ⟨t, ht, hall⟩ := readAll_runs harrive (hruns.tail hmove)
  obtain ⟨lexemes, hlexemes, htokens⟩ := readAll_end ht hb hloose
  refine ⟨lexemes, ?_, ?_⟩
  · rw [Yaml.tokens, if_pos (List.all_eq_true.2 (allowed_entryLine hcs)), ← hlexemes, ← hall]
    rfl
  · rw [htokens]
    rfl

end Draft

namespace Protected

theorem keepsLines_quoteEncoder (double : Bool) : KeepsLines (quoteEncoder double) := by
  intro c next
  constructor
  · intro h
    rcases mem_quotedChar h with heq | heq
    · exact heq.symm
    · exact absurd heq (by decide)
  · rintro rfl
    rw [quoteEncoder, quotedChar_self (by decide)]
    exact List.mem_singleton_self _

/-- An expression on one line between quotes is read as it stands in the text. -/
theorem unescape_line {double : Bool} {span : List Char} (hspan : IsLine span) :
    unescape (String.ofList (encode (quoteEncoder double) none span)) (Cursor.quoteStyle double) = .ok span := by
  have htokens := @Draft.tokens_enclosed double _ _ (allowed_quotedChars hspan)
    (Cursor.quotedRest_line (fun c hc => (hspan c hc).2) (by simp))
  have hstyle : Cursor.quoteStyle double = .single ∨ Cursor.quoteStyle double = .double := by cases double <;> decide
  have hquote : quote? (Cursor.quoteStyle double) = some (Cursor.quoteMark double) := by cases double <;> rfl
  have hread := readOlder_quoted hstyle htokens
  simp only [unescape, hquote, String.toList_ofList, encode_quoteEncoder, List.cons_append, hread, bind,
    Except.bind, pure, Except.pure]

/-- A line with expressions, in quotes as the value of an entry. -/
theorem protect_entryLine (double newline : Bool) {cs : List Char} {parts : List Part} (h : Divided cs parts) :
    protectFrom 0 0 (entryLine double newline cs) = (entryLine double newline (sealedText 0 parts),
      (lineSpans parts).map (encode (quoteEncoder double) none)) := by
  have hbraceless : ∀ c ∈ Cursor.quoteMark double :: (if newline then ['\n'] else []), isBrace c = false := by
    cases double <;> cases newline <;> exact forall_mem_of_all (by decide)
  have hplain : ∀ c ∈ ['k', ':', ' ', Cursor.quoteMark double], c ≠ '$' := by
    cases double <;> exact forall_mem_of_all (by decide)
  have hline (cs : List Char) : entryLine double newline cs = ['k', ':', ' ', Cursor.quoteMark double] ++
      (encode (quoteEncoder double) none cs ++ (Cursor.quoteMark double :: if newline then ['\n'] else [])) := by
    simp [entryLine, quotedLine, encode_quoteEncoder]
  rw [hline, protectFrom_pass hplain,
    h.protectFrom (isLocal_quoteEncoder double) (keepsLines_quoteEncoder double) 0 none hbraceless, ← hline]

/-- Quotes hide nothing of a text: on one line and without the stem of the marks, it is loaded from quotes
as it is, in single ones with its apostrophes doubled, in double ones with a backslash before quotation
marks and backslashes. -/
theorem load_quoted {s : String} (hline : IsLine s.toList) (hstem : Text.contains "AZURE_EXPR_" s = false)
    (double newline : Bool) (file : Option String) :
    load (String.ofList (entryLine double newline s.toList)) file = .ok (.pairs [(.text "k", .text s)]) := by
  obtain ⟨parts, hparts⟩ := exists_divided s.toList
  obtain ⟨opened, hsealed⟩ := hparts.sealed (keepsLines_quoteEncoder double) 0
  have hmarked : IsLine (sealedText 0 parts) :=
    hsealed.all hline fun c hc => ⟨(straight_markChar hc).2.1, isBreak_markChar hc⟩
  have hrestored : restored (String.ofList (sealedText 0 parts))
      ([] ++ ((lineSpans parts).map (encode (quoteEncoder double) none)).map String.ofList ++ [])
      (Cursor.quoteStyle double) = .ok (String.ofList s.toList) :=
    hsealed.restored (stemless_of_contains hstem)
      (fun span _ hin _ => unescape_line fun c hc => hline c (hin.subset hc)) rfl
  rw [List.nil_append, List.append_nil, String.ofList_toList] at hrestored
  obtain ⟨lexemes, hlexemes, htokens⟩ := Draft.tokens_entryLine double newline hmarked
  rw [← List.append_nil (Token.mark _ :: _)] at htokens
  obtain ⟨node, hnode, hspells⟩ := Node.ofText_tokens false .core hlexemes htokens
  have hmeans : Node.Means .core
      (coreRules (((lineSpans parts).map (encode (quoteEncoder double) none)).map String.ofList))
      (entryDraft double (sealedText 0 parts)) (.pairs [(.text "k", .text s)]) := by
    rw [entryDraft, Node.Means]
    refine ⟨_, rfl, ?_⟩
    rw [Node.MeansEntries]
    refine ⟨"k", .text s, [], rfl, by decide, ?_, ?_, ?_⟩
    · exact coreRules_text rfl
    · rw [Node.Means]
      intro line
      have htag : Node.tagIn .core (Cursor.quoteStyle double) (sealedText 0 parts) = .text := by cases double <;> rfl
      rw [htag]
      exact coreRules_text hrestored
    · rw [Node.MeansEntries]
  have hread : read (String.ofList (entryLine double newline s.toList)) = .ok (.pairs [(.text "k", .text s)]) := by
    rw [read, protect, String.toList_ofList, protect_entryLine double newline hparts]
    simp only [String.toList_ofList, hnode, bind, Except.bind]
    exact Node.documentValue_spells rfl hspells hmeans
  rw [load, hread]
  rfl

theorem load_quoted_unclosed :
    IsLine "\\'$\x7b\x7b 'a\"' \x7d\x7d': # $\x7b\x7b".toList ∧
      Text.contains "AZURE_EXPR_" "\\'$\x7b\x7b 'a\"' \x7d\x7d': # $\x7b\x7b" = false ∧
      load (String.ofList (entryLine true true "\\'$\x7b\x7b 'a\"' \x7d\x7d': # $\x7b\x7b".toList)) none =
        .ok (.pairs [(.text "k", .text "\\'$\x7b\x7b 'a\"' \x7d\x7d': # $\x7b\x7b")]) := by
  have hline : IsLine "\\'$\x7b\x7b 'a\"' \x7d\x7d': # $\x7b\x7b".toList := forall_mem_of_all (by decide)
  have hstem : Text.contains "AZURE_EXPR_" "\\'$\x7b\x7b 'a\"' \x7d\x7d': # $\x7b\x7b" = false := by decide
  exact ⟨hline, hstem, load_quoted hline hstem true true none⟩

end Protected

end PipelineTemplate.Yaml
