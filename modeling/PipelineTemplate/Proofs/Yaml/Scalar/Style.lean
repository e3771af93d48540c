import PipelineTemplate.Proofs.Yaml.Draft

/-!
# The style of a scalar

The style in which a scalar is written, and that its text fits the style: what the writer asks of a text
before it writes it in a style is what the reader needs to find the text again. Only next-line characters
are lost outside of quotation marks.
-/

namespace PipelineTemplate.Yaml

namespace ScalarText

/-- The style in which a scalar is written. -/
def styleOf (tag : Tag) (s : String) : Style :=
  if tag = .text ∧ '\n' ∈ s.toList then if allowsBlock s.toList then .literal else .double
  else if Schema.older.tagOf s = tag ∧ allowsPlain s.toList then .plain
  else if allowsSingle s.toList then .single
  else .double

theorem write_styleOf (n : Nat) (tag : Tag) (s : String) : write n tag s = writtenIn n s.toList (styleOf tag s) := by
  rw [write, styleOf]
  split
  · split <;> rfl
  · split
    · rfl
    · split <;> rfl

theorem isPlain_styleOf (tag : Tag) (s : String) : isPlain tag s = decide (styleOf tag s = .plain) := by
  have hmem : (s.toList.any (· = '\n')) = decide ('\n' ∈ s.toList) := by
    rw [Bool.eq_iff_iff]
    simp
  rw [isPlain, styleOf, hmem]
  by_cases hline : tag = .text ∧ '\n' ∈ s.toList
  · rw [if_pos hline]
    split <;> simp [hline]
  · rw [if_neg hline]
    by_cases hplain : Schema.older.tagOf s = tag ∧ allowsPlain s.toList
    · rw [if_pos hplain]
      have : (decide (tag = .text) && decide ('\n' ∈ s.toList)) = false := by
        rw [Bool.and_eq_false_iff, decide_eq_false_iff_not, decide_eq_false_iff_not]
        exact not_and_or.1 hline
      simp [this, hplain]
    · rw [if_neg hplain]
      rw [not_and_or, Bool.not_eq_true] at hplain
      rcases hplain with h | h <;> split <;> simp [h]

/-! ## Characters -/

theorem isOrdinary_spec {c : Char} (h : isOrdinary c = true) :
    isAllowed c = true ∧ c ≠ '\t' ∧ (isLineBreak c = false → isStraight c = true) ∧
      (isBreak c = true → isLineBreak c = true) := by
  have hne {d : Char} (hd : isOrdinary d = false) : c ≠ d := by
    rintro rfl
    rw [h] at hd
    cases hd
  have hr := hne (d := '\r') (by decide)
  have hbom := hne (d := '\uFEFF') (by decide)
  refine ⟨?_, hne (by decide), ?_, ?_⟩
  · simp only [isOrdinary, Bool.or_eq_true, Bool.and_eq_true, decide_eq_true_eq] at h
    simp only [isAllowed, Bool.or_eq_true, Bool.and_eq_true, decide_eq_true_eq]
    omega
  · intro hb
    simp only [isLineBreak, Bool.or_eq_false_iff, decide_eq_false_iff_not] at hb
    simp [isStraight, isBreak, hr, hbom, hb]
  · simp [isBreak, isLineBreak, hr]

theorem needsEscapes_eq_false {cs : List Char} (h : needsEscapes cs = false) :
    (∀ c ∈ cs, isOrdinary c = true) ∧ cs.IsChain fun c d => ¬(c = ' ' ∧ isLineBreak d = true) := by
  rw [needsEscapes, Bool.or_eq_false_iff, Bool.not_eq_false', List.all_eq_true, hasPair_eq_false_iff] at h
  simpa using h

/-! ## Fitting -/

variable {cs : List Char}

theorem isPlain_of_allowsPlain (h : allowsPlain cs = true) (hne : cs ≠ []) : IsPlain cs := by
  simp only [allowsPlain, Bool.not_eq_true', Bool.or_eq_false_iff, hasLooseEnd, hasIndicator] at h
  obtain ⟨⟨⟨⟨hhead, hlast⟩, ⟨⟨hbegin, hcolon⟩, hhash⟩, hlastColon⟩, hescapes⟩, hbreaks⟩ := h
  obtain ⟨hordinary, -⟩ := needsEscapes_eq_false hescapes
  rw [hasPair_eq_false_iff] at hcolon hhash
  obtain ⟨c, rest, rfl⟩ := List.exists_cons_of_ne_nil hne
  simp only [beginsWithIndicator, Bool.or_eq_false_iff] at hbegin
  obtain ⟨⟨⟨hhyphens, hdots⟩, hindicator⟩, hword⟩ := hbegin
  have hlist : c ∉ "#,[]\x7b\x7d&*!|>'\"%@`".toList := of_decide_eq_false hindicator
  refine ⟨⟨?_, ⟨c, rest, rfl, ?_, ?_⟩, ⟨?_, ?_⟩, ?_, ?_⟩, ?_, hhyphens, hdots⟩
  · intro d hd
    obtain ⟨-, htab, hstraight, -⟩ := isOrdinary_spec (hordinary d hd)
    exact ⟨hstraight (Bool.eq_false_iff.2 (List.any_eq_false.1 hbreaks d hd)), htab⟩
  · rintro rfl
    simp at hhead
  · rintro rfl
    exact hlist (by decide)
  · intro hl
    rw [hl] at hlast
    exact absurd hlast (by decide)
  · exact of_decide_eq_false hlastColon
  · refine hcolon.imp ?_
    rintro x y hxy ⟨rfl, rfl⟩
    exact hxy ⟨rfl, rfl⟩
  · refine hhash.imp ?_
    rintro x y hxy ⟨rfl, rfl⟩
    exact hxy ⟨rfl, rfl⟩
  · rintro x more heq
    cases heq
    refine ⟨hlist, fun hx => ?_⟩
    have hmember : decide (c ∈ ['?', ':', '-']) = true := by
      rcases hx with rfl | rfl | rfl <;> decide
    rw [hmember, Bool.true_and, beforeSpace] at hword
    cases rest with
    | nil => cases hword
    | cons d more =>
      refine ⟨d, more, rfl, ?_⟩
      rintro rfl
      cases hword

theorem isSingleText_of_allowsSingle (h : allowsSingle cs = true) (hline : '\n' ∉ cs) (hnext : '\x85' ∉ cs) :
    IsSingleText cs := by
  simp only [allowsSingle, Bool.not_eq_true', Bool.or_eq_false_iff] at h
  obtain ⟨hescapes, hbehind⟩ := h
  obtain ⟨hordinary, hbefore⟩ := needsEscapes_eq_false hescapes
  rw [hasPair_eq_false_iff] at hbehind
  have hbreak {c : Char} (hc : c ∈ cs) (hb : isBreak c = true) : isLineBreak c = true :=
    (isOrdinary_spec (hordinary c hc)).2.2.2 hb
  constructor
  · intro c hc
    refine ⟨(isOrdinary_spec (hordinary c hc)).2.1, fun hb => ?_⟩
    have := hbreak hc hb
    simp only [isLineBreak, Bool.or_eq_true, decide_eq_true_eq] at this
    rcases this with ((rfl | rfl) | rfl) | rfl
    · exact absurd hc hline
    · exact absurd hc hnext
    · decide
    · decide
  · refine List.IsChain.imp_of_mem_imp ?_ hbefore
    rintro x y - hy hxy ⟨rfl, hb⟩
    exact hxy ⟨rfl, hbreak hy hb⟩
  · refine List.IsChain.imp_of_mem_imp ?_ hbehind
    rintro x y hx - hxy ⟨hb, rfl⟩
    exact hxy ⟨hbreak hx hb, rfl⟩

theorem isBlockText_of_allowsBlock (h : allowsBlock cs = true) (hnext : '\x85' ∉ cs) : IsBlockText cs := by
  simp only [allowsBlock, Bool.not_eq_true', Bool.or_eq_false_iff] at h
  obtain ⟨hordinary, -⟩ := needsEscapes_eq_false h.1
  intro c hc
  obtain ⟨-, -, hstraight, -⟩ := isOrdinary_spec (hordinary c hc)
  cases hb : isLineBreak c with
  | false => exact .inl (hstraight hb)
  | true =>
    simp only [isLineBreak, Bool.or_eq_true, decide_eq_true_eq] at hb
    rcases hb with ((rfl | rfl) | rfl) | rfl
    · exact .inr (by decide)
    · exact absurd hc hnext
    · exact .inr (by decide)
    · exact .inr (by decide)

/-- No style but that of quotation marks holds characters that need escapes. -/
theorem needsEscapes_of_allows (h : allowsPlain cs = true ∨ allowsSingle cs = true ∨ allowsBlock cs = true) :
    needsEscapes cs = false := by
  simp only [allowsPlain, allowsSingle, allowsBlock, Bool.not_eq_true', Bool.or_eq_false_iff] at h
  rcases h with h | h | h
  · exact h.1.2
  · exact h.1
  · exact h.1

/-- What is known of a text that is written in a style. -/
theorem styleOf_cases (tag : Tag) (s : String) :
    (styleOf tag s = .literal ∧ '\n' ∈ s.toList ∧ allowsBlock s.toList = true) ∨
      (styleOf tag s = .plain ∧ Schema.older.tagOf s = tag ∧ allowsPlain s.toList = true) ∨
      (styleOf tag s = .single ∧ (tag = .text → '\n' ∉ s.toList) ∧ allowsSingle s.toList = true) ∨
      styleOf tag s = .double := by
  rw [styleOf]
  by_cases hline : tag = .text ∧ '\n' ∈ s.toList
  · rw [if_pos hline]
    by_cases hblock : allowsBlock s.toList = true
    · rw [if_pos hblock]
      exact .inl ⟨rfl, hline.2, hblock⟩
    · rw [if_neg hblock]
      exact .inr (.inr (.inr rfl))
  · rw [if_neg hline]
    by_cases hplain : Schema.older.tagOf s = tag ∧ allowsPlain s.toList
    · rw [if_pos hplain]
      exact .inr (.inl ⟨rfl, hplain⟩)
    · rw [if_neg hplain]
      by_cases hsingle : allowsSingle s.toList = true
      · rw [if_pos hsingle]
        exact .inr (.inr (.inl ⟨rfl, fun ht hm => hline ⟨ht, hm⟩, hsingle⟩))
      · rw [if_neg hsingle]
        exact .inr (.inr (.inr rfl))

/-- A text fits the style in which it is written, if it has next-line characters only between quotation
marks. -/
theorem writable_styleOf {s : String} (hnext : '\x85' ∈ s.toList → styleOf .text s = .double) :
    Draft.Writable s.toList (styleOf .text s) := by
  have hordinary (h : allowsPlain s.toList = true ∨ allowsSingle s.toList = true ∨ allowsBlock s.toList = true) :
      ∀ c ∈ s.toList, isAllowed c = true :=
    fun c hc => (isOrdinary_spec ((needsEscapes_eq_false (needsEscapes_of_allows h)).1 c hc)).1
  have hlost (hd : styleOf .text s ≠ .double) : '\x85' ∉ s.toList := fun h => hd (hnext h)
  rcases styleOf_cases .text s with ⟨hs, hline, hblock⟩ | ⟨hs, htag, hplain⟩ | ⟨hs, hline, hsingle⟩ | hs
  · rw [hs] at hlost ⊢
    refine ⟨⟨isBlockText_of_allowsBlock hblock (hlost (by decide)), ?_⟩, .inr (hordinary (.inr (.inr hblock)))⟩
    exact List.ne_nil_of_mem hline
  · rw [hs]
    refine ⟨isPlain_of_allowsPlain hplain fun hnil => ?_, .inr (hordinary (.inl hplain))⟩
    rw [String.toList_eq_nil_iff.1 hnil] at htag
    cases htag
  · rw [hs] at hlost ⊢
    exact ⟨isSingleText_of_allowsSingle hsingle (hline rfl) (hlost (by decide)),
      .inr (hordinary (.inr (.inl hsingle)))⟩
  · rw [hs]
    exact ⟨trivial, .inl rfl⟩

/-- A numeral is plain under the schema in which it has its tag. -/
theorem styleOf_plain {tag : Tag} {s : String} (htag : Schema.older.tagOf s = tag) (hn : tag ≠ .text)
    (hplain : allowsPlain s.toList = true) : styleOf tag s = .plain := by
  rw [styleOf, if_neg (fun h => hn h.1), if_pos ⟨htag, hplain⟩]

end ScalarText

end PipelineTemplate.Yaml
