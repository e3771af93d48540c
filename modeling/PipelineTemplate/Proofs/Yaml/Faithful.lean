import PipelineTemplate.Proofs.Yaml.Protected.Restoration
import PipelineTemplate.Proofs.Yaml.Protected.Unescaping
import PipelineTemplate.Proofs.Yaml.Scalar.Style

/-!
# Texts that come back

The writer decides by the older schema what may be plain, and the reader by the core schema; the reader
takes expressions out of the written text without regard to scalars. A text is faithful if neither does
any harm to it. The expressions of a faithful text are taken out of what is written of it and come back
with it.
-/

namespace PipelineTemplate.Yaml

open ScalarText (styleOf isLineBreak)

namespace Schema

/-! ## Texts with low lines -/

theorem notMem_of_isRun {test : Char → Bool} {cs : List Char} (h : isRun test cs = true) (ht : test '_' = false) :
    '_' ∉ cs := by
  intro hm
  simp only [isRun, Bool.and_eq_true] at h
  rw [List.all_eq_true.1 h.2 _ hm] at ht
  cases ht

theorem notMem_of_unsigned {cs : List Char} (h : '_' ∉ unsigned cs) : '_' ∉ cs := by
  unfold unsigned at h
  split at h
  · exact fun hm => h ((List.mem_cons.1 hm).resolve_left (by decide))
  · exact fun hm => h ((List.mem_cons.1 hm).resolve_left (by decide))
  · exact h

theorem notMem_cons {x : Char} {cs : List Char} (hx : x ≠ '_') (h : '_' ∉ cs) : '_' ∉ x :: cs :=
  fun hm => h ((List.mem_cons.1 hm).resolve_left hx.symm)

theorem notMem_of_isCoreInteger {cs : List Char} (h : isCoreInteger cs = true) : '_' ∉ cs := by
  rw [isCoreInteger.eq_def, Bool.or_eq_true] at h
  rcases h with h | h
  · exact notMem_of_unsigned (notMem_of_isRun h (by decide))
  · split at h
    · exact notMem_cons (by decide) (notMem_cons (by decide) (notMem_of_isRun h (by decide)))
    · exact notMem_cons (by decide) (notMem_cons (by decide) (notMem_of_isRun h (by decide)))
    · cases h

theorem notMem_of_digits {cs : List Char} (h : '_' ∉ cs.dropWhile Text.isPlainDigit) : '_' ∉ cs := by
  intro hm
  rw [← List.takeWhile_append_dropWhile (p := Text.isPlainDigit) (l := cs), List.mem_append] at hm
  exact absurd (List.mem_takeWhile_imp (hm.resolve_right h)) (by decide)

theorem notMem_of_isCoreReal {cs : List Char} (h : isCoreReal cs = true) : '_' ∉ cs := by
  have hexponent {mark : Char} {digits : List Char} (h : ((mark = 'e' || mark = 'E') &&
      isRun Text.isPlainDigit (unsigned digits)) = true) : '_' ∉ mark :: digits := by
    rw [Bool.and_eq_true] at h
    refine notMem_cons ?_ (notMem_of_unsigned (notMem_of_isRun h.2 (by decide)))
    rintro rfl
    exact absurd h.1 (by decide)
  have hinfinity : ∀ w ∈ [".inf".toList, ".Inf".toList, ".INF".toList], '_' ∉ w := by decide
  have hnan : ∀ w ∈ [".nan".toList, ".NaN".toList, ".NAN".toList], '_' ∉ w := by decide
  simp only [isCoreReal, List.span_eq_takeWhile_dropWhile, Bool.or_eq_true] at h
  rcases h with (h | h) | h
  · apply notMem_of_unsigned
    apply notMem_of_digits
    split at h
    · next rest heq =>
      rw [heq]
      apply notMem_cons (by decide)
      apply notMem_of_digits
      rw [Bool.and_eq_true] at h
      have h := h.2
      split at h
      · next hnil =>
        rw [hnil]
        exact List.not_mem_nil
      · next hcons =>
        rw [hcons]
        exact hexponent h
    · rw [Bool.and_eq_true] at h
      have h := h.2
      split at h
      · next hnil =>
        rw [hnil]
        exact List.not_mem_nil
      · next hcons =>
        rw [hcons]
        exact hexponent h
  · exact notMem_of_unsigned (hinfinity _ (of_decide_eq_true h))
  · exact hnan _ (of_decide_eq_true h)

/-- The core schema has no words and numerals with low lines. -/
theorem core_tagOf_lowLine {s : String} (h : '_' ∈ s.toList) : Schema.core.tagOf s = .text := by
  have hne : s ≠ "" := by
    rintro rfl
    cases h
  obtain ⟨cs, hcs⟩ : ∃ cs, cs = if s.toList.getLast? = some '\n' then s.toList.dropLast else s.toList := ⟨_, rfl⟩
  have hmem : '_' ∈ cs := by
    rw [hcs]
    split
    · next hlast =>
      rw [← List.dropLast_append_getLast? _ hlast, List.mem_append] at h
      exact h.resolve_right (by decide)
    · exact h
  have hword (words : List String) (hw : ∀ w ∈ words, '_' ∉ w.toList) : String.ofList cs ∉ words := by
    intro hm
    have := hw _ hm
    rw [String.toList_ofList] at this
    exact this hmem
  have hnull : isNull cs = false := by
    refine decide_eq_false fun hm => ?_
    simp only [List.mem_cons, List.not_mem_nil, or_false] at hm
    rcases hm with rfl | rfl | rfl | rfl | rfl <;> revert hmem <;> decide
  have hmerge : cs ≠ ['<', '<'] := by
    rintro rfl
    revert hmem
    decide
  rw [tagOf, if_neg hne, ← hcs]
  simp only [decide_eq_false (hword ["true", "True", "TRUE", "false", "False", "FALSE"] (by decide)),
    isCoreTruth, Bool.false_eq_true, if_false, Bool.eq_false_iff.2 fun hi => notMem_of_isCoreInteger hi hmem,
    Bool.eq_false_iff.2 fun hr => notMem_of_isCoreReal hr hmem, hnull, Bool.false_and, hmerge]

end Schema

/-! ## Faithful texts -/

/-- A text that is the same when it is read back. -/
structure Faithful (s : String) : Prop where
  /-- A text that is plain is one for the reader as well. -/
  plain : styleOf .text s = .plain → Schema.core.tagOf s = .text
  /-- Outside of quotation marks a next-line character is a line break like others. -/
  nextLine : '\x85' ∈ s.toList → styleOf .text s = .double
  /-- No expression goes on behind the text. -/
  closed : Protected.Closed s.toList
  /-- No marks are read that were not put there. -/
  stemless : Protected.Stemless s.toList
  /-- A literal block indents its lines, also those of an expression that is taken out of it. -/
  separators : styleOf .text s = .literal → ∀ span, Protected.IsSpan span → span <:+: s.toList → '\n' ∉ span →
    ∀ c ∈ span, isLineBreak c = false

namespace Protected

variable {f : Encoder} {index : Nat} {cs opened cs' : List Char} {spans : List (List Char)}

/-- Where there are no marks the text is left as it is. -/
theorem Sealed.eq_or_mem (h : Sealed f index cs opened cs' spans) : cs' = cs ∨ '_' ∈ cs' := by
  induction h with
  | nil => exact .inl rfl
  | char more ih =>
    rcases ih with rfl | hm
    · exact .inl rfl
    · exact .inr (List.mem_cons_of_mem _ hm)
  | bracket hb more ih =>
    cases hb with
    | opening | closing => exact .inr (List.mem_append_left _ (by decide))
  | line hspan hline more ih =>
    exact .inr (List.mem_append_left _ (List.mem_append_left _ (List.mem_append_left _ (by decide))))

end Protected

open Protected (Sealed)

namespace Faithful

variable {s : String} (h : Faithful s) {n index : Nat} {opened cs' : List Char} {spans : List (List Char)}
  (hsealed : Sealed (styleEncoder n (styleOf .text s)) index s.toList opened cs' spans)
include h

theorem writable : Draft.Writable s.toList (styleOf .text s) := ScalarText.writable_styleOf h.nextLine

include hsealed

/-- With marks in the place of its expressions it is still a text. -/
theorem tag : Node.tagIn .core (styleOf .text s) cs' = .text := by
  rw [Node.tagIn]
  split
  · next hplain =>
    rcases hsealed.eq_or_mem with rfl | hm
    · rw [String.ofList_toList]
      exact h.plain hplain
    · apply Schema.core_tagOf_lowLine
      rwa [String.toList_ofList]
  · rfl

/-- Its expressions come back. -/
theorem restored (hn : 0 < n) {before after : List String} (hindex : before.length = index) :
    Protected.restored (String.ofList cs') (before ++ spans.map String.ofList ++ after) (styleOf .text s) = .ok s := by
  have hrestored := @Sealed.restored (styleOf .text s) _ _ _ _ _ _ hsealed h.stemless
    (fun span hspan hi hline => ?_) before after hindex
  · rwa [String.ofList_toList] at hrestored
  rcases ScalarText.styleOf_cases .text s with ⟨hs, -⟩ | ⟨hs, -⟩ | ⟨hs, -⟩ | hs
  · rw [hs] at hline ⊢
    apply Protected.unescape_literal
    apply h.separators hs span hspan hi
    exact fun hm => hline (Protected.mem_encode_literal hm)
  · rw [hs]
    exact Protected.unescape_plain
  · rw [hs]
    exact Protected.unescape_quoted hn (.inl rfl) (hs ▸ h.writable) hi
  · rw [hs]
    exact Protected.unescape_quoted hn (.inr rfl) (hs ▸ h.writable) hi

end Faithful

end PipelineTemplate.Yaml
