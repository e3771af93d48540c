import PipelineTemplate.Proofs.Number.Layout
import PipelineTemplate.Proofs.Number.Whole
import PipelineTemplate.Yaml.Outline
import PipelineTemplate.Yaml.Protected

/-!
# Numbers in documents

Whole numbers and finite doubles are written as plain scalars that both schemas take for numbers, and
they are read back from them.
-/

namespace PipelineTemplate.Yaml

/-- The characters of numerals. -/
def isNumeralChar (c : Char) : Bool :=
  Text.isPlainDigit c || c = '-' || c = '+' || c = '.' || c = 'e'

theorem isNumeralChar_iff {c : Char} : isNumeralChar c = true ↔
    Text.isPlainDigit c = true ∨ c = '-' ∨ c = '+' ∨ c = '.' ∨ c = 'e' := by
  simp [isNumeralChar, or_assoc]

theorem isNumeralChar_of_digit {c : Char} (h : Text.isPlainDigit c = true) : isNumeralChar c = true := by
  simp [isNumeralChar, h]

/-- A numeral: a minus sign perhaps, then a digit, and characters of numerals. -/
inductive IsNumeral : List Char → Prop where
  | unsigned {d : Char} {cs : List Char} (hd : Text.isPlainDigit d = true)
      (hc : cs.all isNumeralChar = true) : IsNumeral (d :: cs)
  | minus {d : Char} {cs : List Char} (hd : Text.isPlainDigit d = true)
      (hc : cs.all isNumeralChar = true) : IsNumeral ('-' :: d :: cs)

namespace IsNumeral

variable {cs : List Char}

theorem all_chars (h : IsNumeral cs) : cs.all isNumeralChar = true := by
  cases h with
  | unsigned hd hc => rw [List.all_cons, isNumeralChar_of_digit hd, hc]; rfl
  | minus hd hc => rw [List.all_cons, List.all_cons, isNumeralChar_of_digit hd, hc]; rfl

theorem ne_nil (h : IsNumeral cs) : cs ≠ [] := by
  cases h <;> exact List.cons_ne_nil _ _

theorem last_ne_newline (h : IsNumeral cs) : cs.getLast? ≠ some '\n' := by
  intro hl
  have hm := List.mem_of_getLast? hl
  have hc := List.all_eq_true.1 h.all_chars _ hm
  exact absurd hc (by decide)

end IsNumeral

theorem isNumeral_ofInt (n : Int) : IsNumeral (Text.ofInt n).toList := by
  have hd (ds : List Char) (h : ds.all Text.isPlainDigit = true) : ds.all isNumeralChar = true :=
    List.all_eq_true.2 fun c hc => isNumeralChar_of_digit (List.all_eq_true.1 h c hc)
  have hall := Text.all_toDigits n.natAbs
  rw [Text.ofInt_toList]
  cases hds : Nat.toDigits 10 n.natAbs with
  | nil => exact absurd hds Nat.toDigits_ne_nil
  | cons d ds =>
    rw [hds, List.all_cons, Bool.and_eq_true] at hall
    split
    · exact .minus hall.1 (hd ds hall.2)
    · exact .unsigned hall.1 (hd ds hall.2)

theorem all_exponentText {tail : List Char} {e : Int} (h : Number.ExponentText tail e) :
    tail.all isNumeralChar = true := by
  cases h with
  | none => rfl
  | minus hd hn | plus hd hn =>
    rw [List.all_cons, List.all_cons, List.all_eq_true.2 fun c hc =>
      isNumeralChar_of_digit (List.all_eq_true.1 hd c hc)]
    rfl

theorem isNumeral_pointText {cs : List Char} {d : Number.Decimal} (h : Number.PointText cs d) :
    IsNumeral cs ∧ IsNumeral ('-' :: cs) := by
  obtain ⟨wholeDigits, wholeNonempty, fractionDigits, -, exponentText, -⟩ := h
  rename_i whole fraction tail exponent
  cases whole with
  | nil => exact absurd rfl wholeNonempty
  | cons c whole =>
    rw [List.all_cons, Bool.and_eq_true] at wholeDigits
    have hall : (whole ++ '.' :: (fraction ++ tail)).all isNumeralChar = true := by
      rw [List.all_append, List.all_cons, List.all_append, all_exponentText exponentText,
        List.all_eq_true.2 fun c hc => isNumeralChar_of_digit (List.all_eq_true.1 wholeDigits.2 c hc),
        List.all_eq_true.2 fun c hc => isNumeralChar_of_digit (List.all_eq_true.1 fractionDigits c hc)]
      rfl
    exact ⟨.unsigned wholeDigits.1 hall, .minus wholeDigits.1 hall⟩

/-! ## The tags of numerals -/

namespace Schema

theorem unsigned_digit {d : Char} {cs : List Char} (h : Text.isPlainDigit d = true) :
    unsigned (d :: cs) = d :: cs := by
  unfold unsigned
  split
  · rename_i heq
    cases heq
    exact absurd h (by decide)
  · rename_i heq
    cases heq
    exact absurd h (by decide)
  · rfl

theorem exists_unsigned {cs : List Char} (h : IsNumeral cs) :
    ∃ d ds, unsigned cs = d :: ds ∧ Text.isPlainDigit d = true ∧ ds.all isNumeralChar = true := by
  cases h with
  | unsigned hd hc => exact ⟨_, _, unsigned_digit hd, hd, hc⟩
  | minus hd hc => exact ⟨_, _, rfl, hd, hc⟩

theorem notMem_words {cs : List Char} (h : IsNumeral cs) (words : List String)
    (hw : words.all fun w => w.toList.head?.any fun c => !isNumeralChar c) :
    String.ofList cs ∉ words := by
  intro hm
  have hf := List.all_eq_true.1 hw _ hm
  rw [String.toList_ofList] at hf
  cases cs with
  | nil => cases hf
  | cons c cs =>
    have hc : isNumeralChar c = true := List.all_eq_true.1 h.all_chars c (by simp)
    simp [hc] at hf

theorem isCoreTruth_numeral {cs : List Char} (h : IsNumeral cs) : isCoreTruth cs = false :=
  decide_eq_false (notMem_words h _ (by decide))

theorem isOlderTruth_numeral {cs : List Char} (h : IsNumeral cs) : isOlderTruth cs = false :=
  decide_eq_false (notMem_words h _ (by decide))

/-- Neither infinities nor the mark for no number begin with a digit. -/
theorem isInfinity_unsigned {cs : List Char} (h : IsNumeral cs) : isInfinity (unsigned cs) = false := by
  obtain ⟨d, ds, hu, hd, -⟩ := exists_unsigned h
  rw [hu]
  refine decide_eq_false fun hm => ?_
  simp only [List.mem_cons, List.not_mem_nil, or_false] at hm
  rcases hm with hm | hm | hm <;> (injection hm with hm; subst hm; exact absurd hd (by decide))

theorem isNaN_numeral {cs : List Char} (h : IsNumeral cs) : isNaN cs = false := by
  refine decide_eq_false fun hm => ?_
  simp only [List.mem_cons, List.not_mem_nil, or_false] at hm
  cases h with
  | unsigned hd hc =>
    rcases hm with hm | hm | hm <;> (injection hm with hm; subst hm; exact absurd hd (by decide))
  | minus hd hc => rcases hm with hm | hm | hm <;> cases hm

theorem core_tagOf_numeral {s : String} (h : IsNumeral s.toList) : Schema.core.tagOf s =
    if isCoreInteger s.toList then .integer
    else if isCoreReal s.toList then .real
    else Schema.core.tagOf s := by
  have hs : s ≠ "" := by
    rintro rfl
    exact h.ne_nil rfl
  by_cases hi : isCoreInteger s.toList = true
  · simp [tagOf, h.last_ne_newline, hs, isCoreTruth_numeral h, hi]
  · by_cases hr : isCoreReal s.toList = true
    · simp [tagOf, h.last_ne_newline, hs, isCoreTruth_numeral h, hi, hr]
    · rw [if_neg hi, if_neg hr]

theorem older_tagOf_numeral {s : String} (h : IsNumeral s.toList) : Schema.older.tagOf s =
    if isOlderReal s.toList then .real
    else if isOlderInteger s.toList then .integer
    else Schema.older.tagOf s := by
  have hs : s ≠ "" := by
    rintro rfl
    exact h.ne_nil rfl
  by_cases hr : isOlderReal s.toList = true
  · simp [tagOf, h.last_ne_newline, hs, isOlderTruth_numeral h, hr]
  · by_cases hi : isOlderInteger s.toList = true
    · simp [tagOf, h.last_ne_newline, hs, isOlderTruth_numeral h, hi, hr]
    · rw [if_neg hr, if_neg hi]

/-! ### Whole numbers -/

theorem toDigits_head {n : Nat} (h : n ≠ 0) :
    ∃ d ds, Nat.toDigits 10 n = d :: ds ∧ '1' ≤ d ∧ d ≤ '9' := by
  induction n using Nat.strongRecOn with
  | ind n ih =>
    by_cases hlt : n < 10
    · refine ⟨n.digitChar, [], Nat.toDigits_of_lt_base hlt, ?_⟩
      have hdigit : ∀ k < 10, k ≠ 0 → '1' ≤ k.digitChar ∧ k.digitChar ≤ '9' := by decide
      exact hdigit n hlt h
    · obtain ⟨d, ds, he, hd⟩ := ih (n / 10) (by omega) (by omega)
      refine ⟨d, ds ++ [(n % 10).digitChar], ?_, hd⟩
      rw [Nat.toDigits_of_base_le (by decide) (by omega), he, List.cons_append]

theorem unsigned_ofInt (n : Int) : unsigned (Text.ofInt n).toList = Nat.toDigits 10 n.natAbs := by
  rw [Text.ofInt_toList]
  split
  · rfl
  · have hall := Text.all_toDigits n.natAbs
    cases hds : Nat.toDigits 10 n.natAbs with
    | nil => rfl
    | cons d ds =>
      rw [hds, List.all_cons, Bool.and_eq_true] at hall
      exact unsigned_digit hall.1

theorem isCoreInteger_ofInt (n : Int) : isCoreInteger (Text.ofInt n).toList = true := by
  have hne : (Nat.toDigits 10 n.natAbs).isEmpty = false := List.isEmpty_eq_false_iff.2 Nat.toDigits_ne_nil
  simp [isCoreInteger, unsigned_ofInt, isRun, hne, Text.all_toDigits]

theorem all_spaced {ds : List Char} (h : ds.all Text.isPlainDigit = true) :
    ds.all (isSpaced Text.isPlainDigit) = true :=
  List.all_eq_true.2 fun c hc => by simp [isSpaced, List.all_eq_true.1 h c hc]

theorem isOlderInteger_ofInt (n : Int) : isOlderInteger (Text.ofInt n).toList = true := by
  by_cases hn : n.natAbs = 0
  · simp [isOlderInteger, unsigned_ofInt, hn, Nat.toDigits_zero]
  · obtain ⟨d, ds, he, hl, hu⟩ := toDigits_head hn
    have hall := Text.all_toDigits n.natAbs
    rw [he, List.all_cons, Bool.and_eq_true] at hall
    simp [isOlderInteger, unsigned_ofInt, he, hl, hu, all_spaced hall.2]

theorem isOlderReal_digits {cs : List Char} (h : IsNumeral cs)
    (hd : (unsigned cs).all Text.isPlainDigit = true) : isOlderReal cs = false := by
  have hspan : (unsigned cs).span (isSpaced Text.isPlainDigit) = (unsigned cs, []) := by
    rw [List.span_eq_takeWhile_dropWhile, List.takeWhile_eq_self_iff.2, List.dropWhile_eq_nil_iff.2]
    all_goals exact fun c hc => List.all_eq_true.1 (all_spaced hd) c hc
  have hpoint : (unsigned cs).span (· ≠ '.') = (unsigned cs, []) := by
    have hne : ∀ c ∈ unsigned cs, decide (c ≠ '.') = true := by
      intro c hc
      refine decide_eq_true ?_
      rintro rfl
      exact absurd (List.all_eq_true.1 hd _ hc) (by decide)
    rw [List.span_eq_takeWhile_dropWhile, List.takeWhile_eq_self_iff.2 hne, List.dropWhile_eq_nil_iff.2 hne]
  unfold isOlderReal
  simp only [hspan, hpoint, isInfinity_unsigned h, isNaN_numeral h, Bool.or_false, Bool.false_or]
  cases h with
  | unsigned hf hc =>
    split
    · rename_i heq
      cases heq
      exact absurd hf (by decide)
    · rfl
  | minus hf hc => rfl

/-! ### Doubles -/

theorem unsigned_pointText {cs : List Char} {d : Number.Decimal} (h : Number.PointText cs d) :
    unsigned cs = cs ∧ unsigned ('-' :: cs) = cs := by
  refine ⟨?_, rfl⟩
  obtain ⟨wholeDigits, wholeNonempty, -, -, -, -⟩ := h
  rename_i whole _ _ _
  cases whole with
  | nil => exact absurd rfl wholeNonempty
  | cons c whole =>
    rw [List.all_cons, Bool.and_eq_true] at wholeDigits
    exact unsigned_digit wholeDigits.1

theorem span_append {test : Char → Bool} {xs ys : List Char} (hx : xs.all test = true)
    (hy : ys.head?.all fun c => !test c) : (xs ++ ys).span test = (xs, ys) := by
  rw [List.all_eq_true] at hx
  have hn : ys.takeWhile test = [] ∧ ys.dropWhile test = ys := by
    cases ys with
    | nil => exact ⟨rfl, rfl⟩
    | cons c ys =>
      have hc : test c = false := by simpa using hy
      simp [hc]
  rw [List.span_eq_takeWhile_dropWhile, List.takeWhile_append_of_pos hx, List.dropWhile_append_of_pos hx,
    hn.1, hn.2, List.append_nil]

theorem isRun_digits {digits : List Char} (hd : digits.all Text.isPlainDigit = true) (hn : digits ≠ []) :
    isRun Text.isPlainDigit digits = true := by
  simp [isRun, hd, hn]

/-- A numeral with a point is a real number of the core schema. -/
theorem isCoreReal_pointText {cs text : List Char} {d : Number.Decimal} (h : Number.PointText cs d)
    (hu : unsigned text = cs) : isCoreReal text = true := by
  obtain ⟨wholeDigits, wholeNonempty, fractionDigits, -, exponentText, -⟩ := h
  rename_i whole fraction tail exponent
  have hw : (whole ++ '.' :: (fraction ++ tail)).span Text.isPlainDigit =
      (whole, '.' :: (fraction ++ tail)) := span_append wholeDigits rfl
  have hne : whole.isEmpty = false := List.isEmpty_eq_false_iff.2 wholeNonempty
  unfold isCoreReal
  rw [hu]
  simp only [hw]
  cases exponentText with
  | none =>
    have hf : (fraction ++ []).span Text.isPlainDigit = (fraction, []) := span_append fractionDigits rfl
    simp only [hf]
    simp [hne]
  | minus hd hn =>
    rename_i digits
    have hf : (fraction ++ 'e' :: '-' :: digits).span Text.isPlainDigit = (fraction, 'e' :: '-' :: digits) :=
      span_append fractionDigits rfl
    simp only [hf]
    simp [hne, unsigned, isRun_digits hd hn]
  | plus hd hn =>
    rename_i digits
    have hf : (fraction ++ 'e' :: '+' :: digits).span Text.isPlainDigit = (fraction, 'e' :: '+' :: digits) :=
      span_append fractionDigits rfl
    simp only [hf]
    simp [hne, unsigned, isRun_digits hd hn]

/-- And it is one of the older schema, which asks for a sign in the exponent. -/
theorem isOlderReal_pointText {cs text : List Char} {d : Number.Decimal} (h : Number.PointText cs d)
    (hu : unsigned text = cs) : isOlderReal text = true := by
  obtain ⟨wholeDigits, wholeNonempty, fractionDigits, -, exponentText, -⟩ := h
  rename_i whole fraction tail exponent
  have hw : (whole ++ '.' :: (fraction ++ tail)).span (isSpaced Text.isPlainDigit) =
      (whole, '.' :: (fraction ++ tail)) := span_append (all_spaced wholeDigits) rfl
  have hs : isSpacedNumeral whole = true := by
    cases whole with
    | nil => exact absurd rfl wholeNonempty
    | cons c whole =>
      rw [List.all_cons, Bool.and_eq_true] at wholeDigits
      simp [isSpacedNumeral, wholeDigits.1, all_spaced wholeDigits.2]
  have hdrop (rest : List Char) (hr : rest.head?.all fun c => !isSpaced Text.isPlainDigit c) :
      (fraction ++ rest).dropWhile (isSpaced Text.isPlainDigit) = rest := by
    have hspan := span_append (all_spaced fractionDigits) hr
    rw [List.span_eq_takeWhile_dropWhile] at hspan
    exact (Prod.mk.inj hspan).2
  unfold isOlderReal
  rw [hu]
  simp only [hw, hs]
  cases exponentText with
  | none =>
    simp only [hdrop [] rfl]
    rfl
  | minus hd hn =>
    rename_i digits
    simp [hdrop ('e' :: '-' :: digits) rfl, isRun_digits hd hn]
  | plus hd hn =>
    rename_i digits
    simp [hdrop ('e' :: '+' :: digits) rfl, isRun_digits hd hn]

theorem isCoreInteger_pointText {cs text : List Char} {d : Number.Decimal} (h : Number.PointText cs d)
    (hu : unsigned text = cs) (hn : IsNumeral text) : isCoreInteger text = false := by
  have hpoint : (unsigned text).all Text.isPlainDigit = false := by
    rw [hu]
    obtain ⟨-, -, -, -, -, -⟩ := h
    simp [Text.isPlainDigit]
  have hmark (mark : Char) (digits : List Char) (hm : isNumeralChar mark = false) :
      text ≠ '0' :: mark :: digits := by
    rintro rfl
    have := hn.all_chars
    simp [hm] at this
  unfold isCoreInteger
  simp only [isRun, hpoint, Bool.and_false, Bool.false_or]
  split
  · exact absurd rfl (hmark 'o' _ (by decide))
  · exact absurd rfl (hmark 'x' _ (by decide))
  · rfl

end Schema

/-- A whole number is tagged as one by both schemas. -/
theorem tagOf_ofInt (schema : Schema) (n : Int) : schema.tagOf (Text.ofInt n) = .integer := by
  have h := isNumeral_ofInt n
  cases schema with
  | core => rw [Schema.core_tagOf_numeral h, if_pos (Schema.isCoreInteger_ofInt n)]
  | older =>
    have hd : (Schema.unsigned (Text.ofInt n).toList).all Text.isPlainDigit = true := by
      rw [Schema.unsigned_ofInt]
      exact Text.all_toDigits _
    rw [Schema.older_tagOf_numeral h, Schema.isOlderReal_digits h hd, Schema.isOlderInteger_ofInt]
    rfl

/-- A whole number is read back from its text. -/
theorem coreWhole_ofInt (n : Int) : coreWhole (Text.ofInt n) = .ok n := by
  have hr := Number.readWhole?_ofInt n
  have hmark (mark : Char) (digits : List Char) (hm : isNumeralChar mark = false) :
      (Text.ofInt n).toList ≠ '0' :: mark :: digits := by
    intro he
    have hall := (isNumeral_ofInt n).all_chars
    rw [he] at hall
    simp [hm] at hall
  unfold coreWhole
  split
  · exact absurd ‹_› (hmark 'x' _ (by decide))
  · exact absurd ‹_› (hmark 'X' _ (by decide))
  · exact absurd ‹_› (hmark 'o' _ (by decide))
  · exact absurd ‹_› (hmark 'O' _ (by decide))
  · rw [hr]
    rfl

/-- The text of a finite double is a numeral with a point behind its sign. -/
theorem render_finite (negative : Bool) {m : Nat} {e : Int} (h : Number.OnGrid m e) :
    ∃ cs d, Number.PointText cs d ∧ (∀ sign, d.toBinary64 sign = .finite sign m e h) ∧
      (Number.documentLayout.render (.finite negative m e h)).toList =
        (if negative then ['-'] else []) ++ cs :=
  Number.Layout.render_finite rfl negative h

/-- A finite double is tagged as a real number by both schemas. -/
theorem tagOf_render (schema : Schema) (negative : Bool) {m : Nat} {e : Int} (h : Number.OnGrid m e) :
    IsNumeral (Number.documentLayout.render (.finite negative m e h)).toList ∧
      schema.tagOf (Number.documentLayout.render (.finite negative m e h)) = .real := by
  obtain ⟨cs, d, hp, -, ht⟩ := render_finite negative h
  have hboth := isNumeral_pointText hp
  have hu : Schema.unsigned ((if negative then ['-'] else []) ++ cs) = cs := by
    cases negative with
    | false => exact (Schema.unsigned_pointText hp).1
    | true => rfl
  have hn : IsNumeral ((if negative then ['-'] else []) ++ cs) := by
    cases negative with
    | false => exact hboth.1
    | true => exact hboth.2
  rw [← ht] at hu hn
  refine ⟨hn, ?_⟩
  cases schema with
  | core =>
    rw [Schema.core_tagOf_numeral hn, Schema.isCoreInteger_pointText hp hu hn,
      Schema.isCoreReal_pointText hp hu]
    rfl
  | older =>
    rw [Schema.older_tagOf_numeral hn, Schema.isOlderReal_pointText hp hu]
    rfl

/-! ## Reading doubles back -/

theorem small_of_isNumeralChar {c : Char} (h : isNumeralChar c = true) : c.toNat < 0x80 ∧ c.toLower = c := by
  rcases isNumeralChar_iff.1 h with hd | rfl | rfl | rfl | rfl
  · have hb := Text.isPlainDigit_iff.1 hd
    refine ⟨by omega, ?_⟩
    have hup : ¬ (c.isUpper = true) := by
      intro hu
      have hA : 65 ≤ c.toNat := (of_decide_eq_true hu).1
      omega
    exact Char.toLower_eq_of_not_isUpper hup
  all_goals exact ⟨by decide, by decide⟩

theorem lowerAfter_ascii {cs : List Char} (h : ∀ c ∈ cs, c.toNat < 0x80) (before : List Char) :
    Text.lowerAfter before cs = cs.map Char.toLower := by
  induction cs generalizing before with
  | nil => rfl
  | cons c cs ih =>
    obtain ⟨hc, hcs⟩ := List.forall_mem_cons.1 h
    have hsigma : (c.toNat == 0x3A3) = false := by
      rw [beq_eq_false_iff_ne]
      omega
    rw [Text.lowerAfter, ih hcs, hsigma, Text.lowerChar, if_pos hc]
    rfl

theorem map_toLower_numeral {cs : List Char} (h : cs.all isNumeralChar = true) : cs.map Char.toLower = cs := by
  rw [List.all_eq_true] at h
  exact (List.map_congr_left fun c hc => (small_of_isNumeralChar (h c hc)).2).trans (List.map_id cs)

theorem lowerAfter_numeral {cs : List Char} (h : cs.all isNumeralChar = true) (before : List Char) :
    Text.lowerAfter before cs = cs := by
  have hsmall : ∀ c ∈ cs, c.toNat < 0x80 := fun c hc => (small_of_isNumeralChar (List.all_eq_true.1 h c hc)).1
  rw [lowerAfter_ascii hsmall, map_toLower_numeral h]

theorem exists_first_digit {cs : List Char} {d : Number.Decimal} (h : Number.PointText cs d) :
    ∃ c rest, cs = c :: rest ∧ c ≠ '-' ∧ c ≠ '+' ∧ c ≠ '.' := by
  obtain ⟨wholeDigits, wholeNonempty, -, -, -, -⟩ := h
  rename_i whole _ _ _
  cases whole with
  | nil => exact absurd rfl wholeNonempty
  | cons c whole =>
    rw [List.all_cons, Bool.and_eq_true] at wholeDigits
    have hne (sign : Char) (hs : Text.isPlainDigit sign = false) : c ≠ sign := by
      rintro rfl
      rw [wholeDigits.1] at hs
      cases hs
    exact ⟨c, _, rfl, hne _ (by decide), hne _ (by decide), hne _ (by decide)⟩

theorem splitSign_pointText (negative : Bool) {cs : List Char} {d : Number.Decimal}
    (h : Number.PointText cs d) :
    Rules.splitSign ((if negative then ['-'] else []) ++ cs) = (negative, cs) := by
  cases negative with
  | true => rfl
  | false =>
    obtain ⟨c, rest, rfl, hm, hp, -⟩ := exists_first_digit h
    simp [Rules.splitSign, hm, hp]

theorem isBlank_of_isNumeralChar {c : Char} (h : isNumeralChar c = true) : Text.isBlank c = false := by
  rcases isNumeralChar_iff.1 h with hd | rfl | rfl | rfl | rfl
  · exact Text.isBlank_of_isPlainDigit hd
  all_goals decide

/-- The unsigned numeral of a double is read as it. -/
theorem readDouble?_pointText {cs : List Char} {d : Number.Decimal} (h : Number.PointText cs d) :
    Number.readDouble? cs = some (d.toBinary64 false) := by
  have hn := (isNumeral_pointText h).1
  have ht : Text.trim cs = cs :=
    Text.trim_of_all fun c hc => isBlank_of_isNumeralChar (List.all_eq_true.1 hn.all_chars c hc)
  have hl : Text.lower (String.ofList cs) = String.ofList cs := by
    rw [Text.lower, String.toList_ofList, lowerAfter_numeral hn.all_chars]
  obtain ⟨r, hr, hv⟩ := h.readUnsigned?
  have hw := Schema.notMem_words hn ["inf", "infinity", "nan"] (by decide)
  simp only [List.mem_cons, List.not_mem_nil, or_false, not_or] at hw
  obtain ⟨hinf, hinfinity, hnan⟩ := hw
  obtain ⟨c, rest, rfl, hm, hp, -⟩ := exists_first_digit h
  have hread : Number.Decimal.read? (c :: rest) = some (false, r) := by
    simp [Number.Decimal.read?, hm, hp, hr]
  simp [-String.ofList_cons, Number.readDouble?, ht, hm, hp, hl, hinf, hinfinity, hnan,
    Number.readBinary64?, hread, Number.Decimal.toBinary64_congr hv]

/-- A finite double is read back from its text. -/
theorem real_render (negative : Bool) {m : Nat} {e : Int} (h : Number.OnGrid m e) :
    Rules.real (Number.documentLayout.render (.finite negative m e h)) =
      .ok (.float (.finite negative m e h)) := by
  obtain ⟨cs, d, hp, hv, ht⟩ := render_finite negative h
  have hn := (tagOf_render .core negative h).1
  generalize Number.documentLayout.render (.finite negative m e h) = s at ht hn
  have hlow : Rules.withoutLowLines s = s.toList := by
    rw [Rules.withoutLowLines, List.filter_eq_self]
    intro c hc
    refine decide_eq_true ?_
    rintro rfl
    exact absurd (List.all_eq_true.1 hn.all_chars _ hc) (by decide)
  have hl : (Text.lower (String.ofList s.toList)).toList = s.toList := by
    rw [String.ofList_toList, Text.lower, lowerAfter_numeral hn.all_chars, String.toList_ofList]
  have hsplit := splitSign_pointText negative hp
  rw [← ht] at hsplit
  have hcolon : ':' ∉ cs := by
    intro hc
    exact absurd (List.all_eq_true.1 (isNumeral_pointText hp).1.all_chars _ hc) (by decide)
  obtain ⟨c, rest, hc, -, -, hpoint⟩ := exists_first_digit hp
  have hinf : cs ≠ ".inf".toList := by
    rintro rfl
    injection hc with hc
    exact hpoint hc.symm
  have hnan : cs ≠ ".nan".toList := by
    rintro rfl
    injection hc with hc
    exact hpoint hc.symm
  unfold Rules.real
  rw [hlow, hl, hsplit]
  simp only [hn.ne_nil, hinf, hnan, hcolon, if_false, readDouble?_pointText hp, hv, Rules.spelled]
  cases negative <;> rfl

/-! ## Numerals as plain scalars -/

namespace ScalarText

theorem isOrdinary_numeral {c : Char} (h : isNumeralChar c = true) :
    isOrdinary c = true ∧ isSpace c = false ∧ c ≠ ':' := by
  have hne (d : Char) (hd : isNumeralChar d = false) : c ≠ d := by
    rintro rfl
    rw [h] at hd
    cases hd
  have hbreak : isLineBreak c = false := by
    simp only [isLineBreak, hne '\n' (by decide), hne '\x85' (by decide), hne '\u2028' (by decide),
      hne '\u2029' (by decide), decide_false, Bool.or_self]
  refine ⟨?_, ?_, hne ':' (by decide)⟩
  · rcases isNumeralChar_iff.1 h with hd | rfl | rfl | rfl | rfl
    · obtain ⟨hl, hu⟩ := Text.isPlainDigit_iff.1 hd
      simp only [isOrdinary, Bool.or_eq_true, Bool.and_eq_true, decide_eq_true_eq]
      omega
    all_goals decide
  · simp only [isSpace, hbreak, hne '\x00' (by decide), hne ' ' (by decide), hne '\t' (by decide),
      hne '\r' (by decide), decide_false, Bool.or_self]

theorem hasPair_of_all {p q : Char → Bool} {cs : List Char} (h : ∀ c ∈ cs, p c = false) :
    hasPair p q cs = false := by
  induction cs with
  | nil => rfl
  | cons c cs ih =>
    obtain ⟨hc, hcs⟩ := List.forall_mem_cons.1 h
    cases cs with
    | nil => rfl
    | cons d cs => rw [hasPair, hc, ih hcs, Bool.false_and, Bool.or_self]

theorem isLineBreak_of_isSpace {c : Char} (h : isSpace c = false) : c ≠ ' ' ∧ isLineBreak c = false := by
  rw [isSpace, Bool.or_eq_false_iff] at h
  refine ⟨?_, h.2⟩
  rintro rfl
  exact absurd h.1 (by decide)

theorem beginsWithIndicator_numeral {cs : List Char} (h : IsNumeral cs) : beginsWithIndicator cs = false := by
  have hdigit {d : Char} (hd : Text.isPlainDigit d = true) {e : Char} (he : Text.isPlainDigit e = false) : e ≠ d := by
    rintro rfl
    rw [hd] at he
    cases he
  have hstarts {x d : Char} {xs cs : List Char} (h : x ≠ d) : (x :: xs).isPrefixOf (d :: cs) = false := by
    rw [Bool.eq_false_iff, ne_eq, List.isPrefixOf_iff_prefix]
    exact fun hp => h (List.cons_prefix_cons.1 hp).1
  cases h with
  | @unsigned d cs hd hc =>
    have hnot (es : List Char) (hes : es.all (!Text.isPlainDigit ·) = true) : d ∉ es := fun hm =>
      hdigit hd (Bool.not_eq_true' _ ▸ List.all_eq_true.1 hes d hm) rfl
    have hlist : d ∉ "#,[]\x7b\x7d&*!|>'\"%@`".toList := hnot _ (by rfl)
    have hword : d ∉ ['?', ':', '-'] := hnot _ (by rfl)
    have hhyphen : '-' ≠ d := hdigit hd (by decide)
    have hdot : '.' ≠ d := hdigit hd (by decide)
    rw [beginsWithIndicator, hstarts hhyphen, hstarts hdot, decide_eq_false hlist, decide_eq_false hword]
    rfl
  | @minus d cs hd hc =>
    have hspace : beforeSpace (d :: cs) = false := (isOrdinary_numeral (isNumeralChar_of_digit hd)).2.1
    have hhyphen : '-' ≠ d := hdigit hd (by decide)
    have hhyphens : ['-', '-', '-'].isPrefixOf ('-' :: d :: cs) = false := by
      rw [List.isPrefixOf_cons_cons, hstarts hhyphen, Bool.and_false]
    have hlist : '-' ∉ "#,[]\x7b\x7d&*!|>'\"%@`".toList := by
      simp
    rw [beginsWithIndicator, hhyphens, hstarts (by decide), hspace, decide_eq_false hlist, Bool.and_false]
    rfl

/-- A numeral may be plain. -/
theorem allowsPlain_numeral {cs : List Char} (h : IsNumeral cs) : allowsPlain cs = true := by
  have hchar {c : Char} (hc : c ∈ cs) := isOrdinary_numeral (List.all_eq_true.1 h.all_chars c hc)
  have hloose {c : Char} (hc : c ∈ cs) : (decide (c = ' ') || isLineBreak c) = false := by
    obtain ⟨hspace, hbreak⟩ := isLineBreak_of_isSpace (hchar hc).2.1
    rw [hbreak, decide_eq_false hspace, Bool.or_self]
  have hends : hasLooseEnd cs = false := by
    rw [hasLooseEnd, Bool.or_eq_false_iff]
    constructor
    · cases hhead : cs.head? with
      | none => rfl
      | some c => exact hloose (List.mem_of_head? hhead)
    · cases hlast : cs.getLast? with
      | none => rfl
      | some c => exact hloose (List.mem_of_getLast? hlast)
  have hindicator : hasIndicator cs = false := by
    have hlast : cs.getLast? ≠ some ':' := fun hl => (hchar (List.mem_of_getLast? hl)).2.2 rfl
    rw [hasIndicator, beginsWithIndicator_numeral h,
      hasPair_of_all fun c hc => decide_eq_false (hchar hc).2.2, hasPair_of_all fun c hc => (hchar hc).2.1,
      decide_eq_false hlast]
    rfl
  have hescapes : needsEscapes cs = false := by
    have hall : cs.all isOrdinary = true := List.all_eq_true.2 fun c hc => (hchar hc).1
    rw [needsEscapes, hall, hasPair_of_all fun c hc => decide_eq_false (isLineBreak_of_isSpace (hchar hc).2.1).1]
    rfl
  have hbreaks : cs.any isLineBreak = false :=
    List.any_eq_false.2 fun c hc => Bool.eq_false_iff.1 (isLineBreak_of_isSpace (hchar hc).2.1).2
  rw [allowsPlain, hends, hindicator, hescapes, hbreaks]
  rfl

end ScalarText

end PipelineTemplate.Yaml
