import PipelineTemplate.Proofs.Yaml.Numeral

/-!
# The forms of the core schema

What the core schema takes for a truth value, a whole number or a real number from its form can be read as
one: a plain scalar never fails.
-/

namespace PipelineTemplate

namespace Yaml

namespace Schema

/-! ## Truth values and whole numbers -/

theorem truth_of_form {s : String} (h : isCoreTruth s.toList = true) : ∃ b, Rules.truth s = .ok b := by
  have hwords : ∀ s ∈ ["true", "True", "TRUE", "false", "False", "FALSE"], ∃ b, Rules.truth s = .ok b := by
    decide
  rw [isCoreTruth, String.ofList_toList, decide_eq_true_iff] at h
  exact hwords s h

/-- A text is its sign and what stands behind it. -/
theorem exists_sign (cs : List Char) : ∃ sign ∈ Number.signs, cs = sign ++ unsigned cs := by
  unfold unsigned
  split
  · exact ⟨['+'], by decide, rfl⟩
  · exact ⟨['-'], by decide, rfl⟩
  · exact ⟨[], by decide, rfl⟩

theorem sign_chars {sign : List Char} (h : sign ∈ Number.signs) : sign.all isNumeralChar = true := by
  simp only [List.mem_cons, List.not_mem_nil, or_false] at h
  rcases h with rfl | rfl | rfl <;> rfl

theorem isRun_iff {test : Char → Bool} {cs : List Char} :
    isRun test cs = true ↔ cs ≠ [] ∧ ∀ c ∈ cs, test c = true := by
  rw [isRun, Bool.and_eq_true, Bool.not_eq_true', List.isEmpty_eq_false_iff, List.all_eq_true]

theorem isDigitOf_of_isOctal {c : Char} (h : isOctal c = true) : Number.IsDigitOf 8 c := by
  rw [isOctal, Bool.and_eq_true, decide_eq_true_iff, decide_eq_true_iff] at h
  have hlow : 48 ≤ c.toNat := h.1
  have hhigh : c.toNat ≤ 55 := h.2
  have hplain : (decide ('0' ≤ c) && decide (c ≤ '9')) = true := Text.isPlainDigit_iff.2 ⟨hlow, by omega⟩
  exact ⟨c.toNat - 48, if_pos hplain, by omega⟩

theorem isDigitOf_of_isHex {c : Char} (h : Text.isHex c = true) : Number.IsDigitOf 16 c := by
  obtain ⟨d, hd⟩ := Option.isSome_iff_exists.1 h
  have hcases := Text.hexValue?_cases hd
  exact ⟨d, hd, by omega⟩

theorem coreWhole_of_form {s : String} (h : isCoreInteger s.toList = true) : ∃ n, coreWhole s = .ok n := by
  have hread {base : Nat} {sign digits : List Char} (hsign : sign ∈ Number.signs) {test : Char → Bool}
      (hrun : isRun test digits = true) (htest : ∀ c, test c = true → Number.IsDigitOf base c) :
      ∃ n, Rules.spelled .number (Number.readWhole? base (sign ++ digits)) = .ok n := by
    obtain ⟨hne, hall⟩ := isRun_iff.1 hrun
    obtain ⟨n, hn⟩ := Number.readWhole?_digits hsign (fun c hc => htest c (hall c hc)) hne
    exact ⟨n, by rw [hn, Rules.spelled]⟩
  unfold isCoreInteger at h
  rw [Bool.or_eq_true] at h
  unfold coreWhole
  rcases h with h | h
  · -- A sign and decimal digits have no mark of a base.
    obtain ⟨sign, hsign, hs⟩ := exists_sign s.toList
    have hten := hread hsign h fun c => Number.isDigitOf_of_isPlainDigit
    rw [← hs] at hten
    have hmark {mark : Char} (hm : Text.isPlainDigit mark = false) (digits : List Char) :
        s.toList ≠ '0' :: mark :: digits := by
      intro heq
      rw [heq] at h
      have hplain := (isRun_iff.1 h).2 mark (List.mem_cons_of_mem _ List.mem_cons_self)
      rw [hm] at hplain
      cases hplain
    split
    · exact absurd ‹_› (hmark (by decide) _)
    · exact absurd ‹_› (hmark (by decide) _)
    · exact absurd ‹_› (hmark (by decide) _)
    · exact absurd ‹_› (hmark (by decide) _)
    · exact hten
  · split at h
    · next digits hs =>
      rw [hs]
      exact hread List.mem_cons_self h fun c => isDigitOf_of_isOctal
    · next digits hs =>
      rw [hs]
      exact hread List.mem_cons_self h fun c => isDigitOf_of_isHex
    · cases h

/-! ## Real numbers -/

/-- An exponent part, or none. -/
inductive IsExponent : List Char → Prop
  | none : IsExponent []
  | part {mark : Char} {digits : List Char} (hmark : mark = 'e' ∨ mark = 'E')
      (hdigits : isRun Text.isPlainDigit (unsigned digits) = true) : IsExponent (mark :: digits)

/-- Digits, perhaps with a point among them, and an exponent part. -/
inductive IsDecimal : List Char → Prop
  | intro {whole point fraction tail : List Char} (hwhole : whole.all Text.isPlainDigit = true)
      (hpoint : point = ['.'] ∨ point = [] ∧ fraction = []) (hfraction : fraction.all Text.isPlainDigit = true)
      (hne : whole ≠ [] ∨ fraction ≠ []) (htail : IsExponent tail) :
      IsDecimal (whole ++ point ++ fraction ++ tail)

theorem span_digits (cs : List Char) : ∃ digits rest, cs.span Text.isPlainDigit = (digits, rest) ∧
    cs = digits ++ rest ∧ digits.all Text.isPlainDigit = true := by
  refine ⟨cs.takeWhile Text.isPlainDigit, cs.dropWhile Text.isPlainDigit,
    List.span_eq_takeWhile_dropWhile _ _, ?_, ?_⟩
  · exact List.takeWhile_append_dropWhile.symm
  · exact List.all_takeWhile

theorem isCoreReal_cases {cs : List Char} (h : isCoreReal cs = true) :
    IsDecimal (unsigned cs) ∨ isInfinity (unsigned cs) = true ∨ isNaN cs = true := by
  unfold isCoreReal at h
  obtain ⟨whole, rest, hspan, hcs, hwhole⟩ := span_digits (unsigned cs)
  simp only [hspan, Bool.or_eq_true] at h
  rcases h with (h | h) | h
  · left
    split at h
    · next rest =>
      obtain ⟨fraction, tail, hspan, hrest, hfraction⟩ := span_digits rest
      have hparts : unsigned cs = whole ++ ['.'] ++ fraction ++ tail := by
        rw [hcs, hrest, List.append_assoc, List.append_assoc, List.singleton_append]
      simp only [hspan, Bool.and_eq_true, Bool.or_eq_true, Bool.not_eq_true', List.isEmpty_eq_false_iff] at h
      rw [hparts]
      refine .intro hwhole (.inl rfl) hfraction h.1 ?_
      cases tail with
      | nil => exact .none
      | cons mark digits =>
        simp only [Bool.and_eq_true, Bool.or_eq_true, decide_eq_true_iff] at h
        exact .part h.2.1 h.2.2
    · have hparts : unsigned cs = whole ++ [] ++ [] ++ rest := by
        rw [hcs, List.append_nil, List.append_nil]
      simp only [Bool.and_eq_true, Bool.not_eq_true', List.isEmpty_eq_false_iff] at h
      rw [hparts]
      refine .intro hwhole (.inr ⟨rfl, rfl⟩) rfl (.inl h.1) ?_
      cases rest with
      | nil => exact .none
      | cons mark digits =>
        simp only [Bool.and_eq_true, Bool.or_eq_true, decide_eq_true_iff] at h
        exact .part h.2.1 h.2.2
  · exact .inr (.inl h)
  · exact .inr (.inr h)

/-- The characters of real numbers: those of numerals and the other mark of an exponent. -/
theorem IsDecimal.chars {cs : List Char} (h : IsDecimal cs) : ∀ c ∈ cs, isNumeralChar c = true ∨ c = 'E' := by
  have hdigits {digits : List Char} (hd : digits.all Text.isPlainDigit = true) {c : Char} (hc : c ∈ digits) :
      isNumeralChar c = true ∨ c = 'E' := .inl (isNumeralChar_of_digit (List.all_eq_true.1 hd c hc))
  obtain ⟨hwhole, hpoint, hfraction, -, htail⟩ := h
  intro c hc
  simp only [List.mem_append] at hc
  rcases hc with ((hc | hc) | hc) | hc
  · exact hdigits hwhole hc
  · rcases hpoint with rfl | ⟨rfl, -⟩
    · rw [List.mem_singleton] at hc
      subst hc
      exact .inl rfl
    · cases hc
  · exact hdigits hfraction hc
  · cases htail with
    | none => cases hc
    | part hmark hrun =>
      rename_i mark digits
      rcases List.mem_cons.1 hc with rfl | hc
      · rcases hmark with rfl | rfl
        · exact .inl rfl
        · exact .inr rfl
      · obtain ⟨sign, hmem, heq⟩ := exists_sign digits
        rw [heq, List.mem_append] at hc
        rcases hc with hc | hc
        · exact .inl (List.all_eq_true.1 (sign_chars hmem) c hc)
        · exact .inl (isNumeralChar_of_digit ((isRun_iff.1 hrun).2 c hc))

theorem lower_char {c : Char} (h : isNumeralChar c = true ∨ c = 'E') :
    c.toNat < 0x80 ∧ isNumeralChar c.toLower = true ∧ c ≠ '_' := by
  have hother {d : Char} (hd : isNumeralChar d = false) (hc : isNumeralChar c = true) : c ≠ d := by
    rintro rfl
    rw [hd] at hc
    cases hc
  rcases h with h | rfl
  · obtain ⟨hsmall, hlower⟩ := small_of_isNumeralChar h
    exact ⟨hsmall, hlower.symm ▸ h, hother (by decide) h⟩
  · decide

theorem map_toLower_digits {digits : List Char} (h : digits.all Text.isPlainDigit = true) :
    digits.map Char.toLower = digits :=
  map_toLower_numeral (List.all_eq_true.2 fun c hc => isNumeralChar_of_digit (List.all_eq_true.1 h c hc))

/-- The exponent part of a real number is read when its mark is small. -/
theorem IsExponent.readExponent? {tail : List Char} (h : IsExponent tail) :
    ∃ e, Number.Decimal.readExponent? (tail.map Char.toLower) = some e := by
  cases h with
  | none => exact ⟨0, rfl⟩
  | part hmark hrun =>
    rename_i mark digits
    have hlower : mark.toLower = 'e' := by
      rcases hmark with rfl | rfl <;> decide
    obtain ⟨hne, hall⟩ := isRun_iff.1 hrun
    have hplain : (unsigned digits).all Text.isPlainDigit = true := List.all_eq_true.2 hall
    have hdecimal := Number.all_isDecimal hplain
    obtain ⟨sign, hsign, heq⟩ := exists_sign digits
    have hdigits : digits.map Char.toLower = sign ++ unsigned digits := by
      conv_lhs => rw [heq]
      rw [List.map_append, map_toLower_numeral (sign_chars hsign), map_toLower_digits hplain]
    rw [List.map_cons, hlower, hdigits]
    generalize unsigned digits = ds at hne hplain hdecimal
    simp only [List.mem_cons, List.not_mem_nil, or_false] at hsign
    rcases hsign with rfl | rfl | rfl
    · cases ds with
      | nil => exact absurd rfl hne
      | cons d ds =>
        rw [List.all_cons, Bool.and_eq_true] at hplain
        have hminus : d ≠ '-' := by
          rintro rfl
          exact absurd hplain.1 (by decide)
        have hplus : d ≠ '+' := by
          rintro rfl
          exact absurd hplain.1 (by decide)
        exact ⟨Text.numeral (d :: ds), by simp [Number.Decimal.readExponent?, hminus, hplus, hdecimal]⟩
    · exact ⟨Text.numeral ds, by simp [Number.Decimal.readExponent?, hne, hdecimal]⟩
    · exact ⟨-Text.numeral ds, by simp [Number.Decimal.readExponent?, hne, hdecimal]⟩

theorem IsExponent.lower_cases {tail : List Char} (h : IsExponent tail) :
    tail.map Char.toLower = [] ∨ ∃ more, tail.map Char.toLower = 'e' :: more := by
  cases h with
  | none => exact .inl rfl
  | part hmark hrun =>
    right
    rcases hmark with rfl | rfl <;> exact ⟨_, rfl⟩

theorem IsDecimal.readUnsigned? {cs : List Char} (h : IsDecimal cs) :
    ∃ d, Number.Decimal.readUnsigned? (cs.map Char.toLower) = some d := by
  obtain ⟨hwhole, hpoint, hfraction, hne, htail⟩ := h
  rename_i whole point fraction tail
  obtain ⟨e, he⟩ := htail.readExponent?
  have hcases := htail.lower_cases
  rw [List.map_append, List.map_append, List.map_append, map_toLower_digits hwhole, map_toLower_digits hfraction]
  generalize tail.map Char.toLower = tail at he hcases
  have hfirst : Text.NoDigitFirst tail := by
    rcases hcases with rfl | ⟨more, rfl⟩ <;> rfl
  rcases hpoint with rfl | ⟨rfl, rfl⟩
  · have hspanWhole : Text.spanDecimal (whole ++ '.' :: (fraction ++ tail)) = (whole, '.' :: (fraction ++ tail)) :=
      Text.spanDecimal_append hwhole rfl
    have hspanFraction := Text.spanDecimal_append hfraction hfirst
    have hsome : ¬(whole = [] ∧ fraction = []) := fun h => hne.elim (· h.1) (· h.2)
    have hparts : whole ++ ['.'].map Char.toLower ++ fraction ++ tail = whole ++ '.' :: (fraction ++ tail) := by
      simp
    rw [hparts, Number.Decimal.readUnsigned?]
    simp only [hspanWhole, hspanFraction, if_neg hsome, he, Option.map_some]
    exact ⟨_, rfl⟩
  · have hspanWhole := Text.spanDecimal_append hwhole hfirst
    have hwholeNe : whole ≠ [] := hne.elim id fun h => absurd rfl h
    rw [List.map_nil, List.append_nil, List.append_nil, Number.Decimal.readUnsigned?]
    simp only [hspanWhole, hwholeNe, false_and, if_false]
    rcases hcases with rfl | ⟨more, rfl⟩ <;> exact ⟨_, congrArg (Option.map _) he⟩

/-- What stands behind the sign of a real number does not begin with a sign. -/
theorem IsDecimal.exists_first {cs : List Char} (h : IsDecimal cs) :
    ∃ c rest, cs.map Char.toLower = c :: rest ∧ c ≠ '-' ∧ c ≠ '+' := by
  obtain ⟨hwhole, hpoint, -, hne, -⟩ := h
  rename_i whole point fraction tail
  cases whole with
  | nil =>
    rcases hpoint with rfl | ⟨rfl, rfl⟩
    · exact ⟨'.', (fraction ++ tail).map Char.toLower, by simp, by decide, by decide⟩
    · exact absurd hne (by simp)
  | cons d ds =>
    rw [List.all_cons, Bool.and_eq_true] at hwhole
    have hsmall := (small_of_isNumeralChar (isNumeralChar_of_digit hwhole.1)).2
    have hother {sign : Char} (hs : Text.isPlainDigit sign = false) : d ≠ sign := by
      rintro rfl
      rw [hwhole.1] at hs
      cases hs
    exact ⟨d, (ds ++ point ++ fraction ++ tail).map Char.toLower, by simp [hsmall], hother (by decide),
      hother (by decide)⟩

theorem IsDecimal.readDouble? {cs : List Char} (h : IsDecimal cs) :
    ∃ x, Number.readDouble? (cs.map Char.toLower) = some x := by
  obtain ⟨d, hd⟩ := h.readUnsigned?
  have hchars : (cs.map Char.toLower).all isNumeralChar = true := by
    rw [List.all_map, List.all_eq_true]
    exact fun c hc => (lower_char (h.chars c hc)).2.1
  obtain ⟨c, rest, hcs, hminus, hplus⟩ := h.exists_first
  rw [hcs] at hd hchars ⊢
  have htrim : Text.trim (c :: rest) = c :: rest :=
    Text.trim_of_all fun c hc => isBlank_of_isNumeralChar (List.all_eq_true.1 hchars c hc)
  have hread : Number.Decimal.read? (c :: rest) = some (false, d) := by
    simp [Number.Decimal.read?, hminus, hplus, hd]
  rw [Number.readDouble?, htrim, Number.readBinary64?, hread]
  dsimp only
  split
  all_goals
    split
    · exact ⟨_, rfl⟩
    split <;> exact ⟨_, rfl⟩

/-- The words for what is no finite number are read in each spelling. -/
theorem real_word {s : String} (h : isInfinity (unsigned s.toList) = true ∨ isNaN s.toList = true) :
    ∃ x, Rules.real s = .ok x := by
  have hread {s : String} (h : (Rules.real s).isOk = true) : ∃ x, Rules.real s = .ok x := by
    cases hx : Rules.real s with
    | error f => rw [hx] at h; cases h
    | ok x => exact ⟨x, rfl⟩
  have hinfinity : ∀ sign ∈ Number.signs, ∀ word ∈ [".inf".toList, ".Inf".toList, ".INF".toList],
      (Rules.real (String.ofList (sign ++ word))).isOk = true := by
    decide
  have hnan : ∀ word ∈ [".nan".toList, ".NaN".toList, ".NAN".toList],
      (Rules.real (String.ofList word)).isOk = true := by
    decide
  apply hread
  rcases h with h | h
  · obtain ⟨sign, hsign, hs⟩ := exists_sign s.toList
    have hword := hinfinity sign hsign _ (of_decide_eq_true h)
    rwa [← hs, String.ofList_toList] at hword
  · have hword := hnan _ (of_decide_eq_true h)
    rwa [String.ofList_toList] at hword

theorem splitSign_signed {sign cs : List Char} (hsign : sign ∈ Number.signs) (hminus : cs.head? ≠ some '-')
    (hplus : cs.head? ≠ some '+') : ∃ negative, Rules.splitSign (sign ++ cs) = (negative, cs) := by
  simp only [List.mem_cons, List.not_mem_nil, or_false] at hsign
  rcases hsign with rfl | rfl | rfl
  · rw [List.nil_append]
    unfold Rules.splitSign
    split
    · exact absurd rfl hminus
    · exact absurd rfl hplus
    · exact ⟨false, rfl⟩
  · exact ⟨false, rfl⟩
  · exact ⟨true, rfl⟩

/-- A decimal with a sign is read after its letters have become small. -/
theorem real_decimal {s : String} {sign cs : List Char} (hsign : sign ∈ Number.signs) (h : IsDecimal cs)
    (hs : s.toList = sign ++ cs) : ∃ x, Rules.real s = .ok x := by
  have hchars : ∀ c ∈ s.toList, isNumeralChar c = true ∨ c = 'E' := by
    intro c hc
    rw [hs, List.mem_append] at hc
    exact hc.elim (fun hc => .inl (List.all_eq_true.1 (sign_chars hsign) c hc)) (h.chars c)
  have hlow : Rules.withoutLowLines s = s.toList :=
    List.filter_eq_self.2 fun c hc => decide_eq_true (lower_char (hchars c hc)).2.2
  have hlower : (Text.lower (String.ofList s.toList)).toList = sign ++ cs.map Char.toLower := by
    rw [Text.lower, String.toList_ofList, String.toList_ofList,
      lowerAfter_ascii fun c hc => (lower_char (hchars c hc)).1, hs, List.map_append,
      map_toLower_numeral (sign_chars hsign)]
  obtain ⟨c, rest, hcs, hminus, hplus⟩ := h.exists_first
  have hne : s.toList ≠ [] := by
    intro hnil
    rw [hs, List.append_eq_nil_iff] at hnil
    rw [hnil.2] at hcs
    cases hcs
  obtain ⟨negative, hsplit⟩ : ∃ negative, Rules.splitSign (sign ++ cs.map Char.toLower) =
      (negative, cs.map Char.toLower) :=
    splitSign_signed hsign (by simp [hcs, hminus]) (by simp [hcs, hplus])
  have hcolon : ':' ∉ cs.map Char.toLower := by
    intro hmem
    obtain ⟨d, hd, heq⟩ := List.mem_map.1 hmem
    have hnumeral := (lower_char (h.chars d hd)).2.1
    rw [heq] at hnumeral
    exact absurd hnumeral (by decide)
  obtain ⟨x, hx⟩ := h.readDouble?
  unfold Rules.real
  rw [hlow, hlower, hsplit]
  simp only [hne, if_false, hcolon, hx, Rules.spelled]
  split
  · exact ⟨_, rfl⟩
  split <;> exact ⟨_, rfl⟩

theorem real_of_form {s : String} (h : isCoreReal s.toList = true) : ∃ x, Rules.real s = .ok x := by
  rcases isCoreReal_cases h with h | h
  · obtain ⟨sign, hsign, hs⟩ := exists_sign s.toList
    exact real_decimal hsign h hs
  · exact real_word h

end Schema

/-! ## Plain scalars -/

/-- A plain scalar is a text, or it has the value that its tag asks for, unless that is to be merged. -/
theorem plainValue_tagOf (spans : List String) {s : String} (hend : s.toList.getLast? ≠ some '\n') (style : Style)
    (line : Nat) : Schema.core.tagOf s = .text ∨ Schema.core.tagOf s = .merge ∨
      ∃ v, Node.plainValue (coreRules spans) (.scalar (Schema.core.tagOf s) s style line) = .ok v := by
  unfold Schema.tagOf
  simp only [hend, if_false]
  split
  · exact .inr (.inr ⟨.null, rfl⟩)
  split
  · next h =>
    obtain ⟨b, hb⟩ := Schema.truth_of_form h
    refine .inr (.inr ⟨.bool b, ?_⟩)
    simp [Node.plainValue, Node.tag, Node.scalarText, hb, bind, Except.bind, pure, Except.pure]
  split
  · next h =>
    obtain ⟨n, hn⟩ := Schema.coreWhole_of_form h
    refine .inr (.inr ⟨.int n, ?_⟩)
    simp [Node.plainValue, Node.tag, Node.scalarText, coreRules, hn, bind, Except.bind, pure, Except.pure]
  split
  · next h =>
    obtain ⟨x, hx⟩ := Schema.real_of_form h
    refine .inr (.inr ⟨.number x, ?_⟩)
    simp [Node.plainValue, Node.tag, Node.scalarText, hx, bind, Except.bind, pure, Except.pure]
  split
  · exact .inr (.inr ⟨.null, rfl⟩)
  split
  · exact .inr (.inl rfl)
  · exact .inl rfl

end Yaml

end PipelineTemplate
