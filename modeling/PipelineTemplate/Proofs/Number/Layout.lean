import Mathlib
import PipelineTemplate.Proofs.Number.Shortest
import PipelineTemplate.Proofs.Text.Digit

/-!
# The text of a double

The digits of a double are laid out as a whole part, a point, a fraction and perhaps an exponent, or as a
single digit and an exponent, and this is read back as the same double.
-/

namespace PipelineTemplate.Number

/-- An exponent part, or none. -/
inductive ExponentText : List Char → Int → Prop where
  | none : ExponentText [] 0
  | minus {digits : List Char} (hd : digits.all Text.isPlainDigit = true) (hn : digits ≠ []) :
      ExponentText ('e' :: '-' :: digits) (-(Text.numeral digits : Int))
  | plus {digits : List Char} (hd : digits.all Text.isPlainDigit = true) (hn : digits ≠ []) :
      ExponentText ('e' :: '+' :: digits) (Text.numeral digits : Int)

/-- A numeral with digits on both sides of its point, and what it denotes. -/
inductive PointText : List Char → Decimal → Prop where
  | intro {whole fraction tail : List Char} {exponent : Int} {d : Decimal}
      (wholeDigits : whole.all Text.isPlainDigit = true) (wholeNonempty : whole ≠ [])
      (fractionDigits : fraction.all Text.isPlainDigit = true) (fractionNonempty : fraction ≠ [])
      (exponentText : ExponentText tail exponent)
      (denotes : (Decimal.mk (Text.numeral (whole ++ fraction)) (exponent - fraction.length)).value =
        d.value) :
      PointText (whole ++ '.' :: (fraction ++ tail)) d

/-- A numeral as layouts write it, and what it denotes: with a point, or, unless a point stands before
every exponent, a single digit and an exponent. -/
inductive UnsignedText : Bool → List Char → Decimal → Prop where
  | point {always : Bool} {cs : List Char} {d : Decimal} (h : PointText cs d) : UnsignedText always cs d
  | digit {c : Char} {tail : List Char} {exponent : Int} (hc : Text.isPlainDigit c = true)
      (exponentText : ExponentText ('e' :: tail) exponent) :
      UnsignedText false (c :: 'e' :: tail) ⟨Text.numeral [c], exponent⟩

theorem UnsignedText.pointText {cs : List Char} {d : Decimal} (h : UnsignedText true cs d) : PointText cs d := by
  cases h with
  | point h => exact h

theorem all_isDecimal {ds : List Char} (h : ds.all Text.isPlainDigit = true) :
    ds.all Text.isDecimal = true := by
  rw [List.all_eq_true] at h ⊢
  intro c hc
  exact Text.isDecimal_of_isPlainDigit (h c hc)

namespace ExponentText

theorem noDigitFirst {tail : List Char} {e : Int} (h : ExponentText tail e) : Text.NoDigitFirst tail := by
  cases h <;> rfl

theorem readExponent?_eq {tail : List Char} {e : Int} (h : ExponentText tail e) :
    Decimal.readExponent? tail = some e := by
  cases h with
  | none => rfl
  | minus hd hn => simp [Decimal.readExponent?, hn, all_isDecimal hd]
  | plus hd hn => simp [Decimal.readExponent?, hn, all_isDecimal hd]

end ExponentText

/-- The numeral is read as a decimal of the same value. -/
theorem PointText.readUnsigned? {cs : List Char} {d : Decimal} (h : PointText cs d) :
    ∃ r, Decimal.readUnsigned? cs = some r ∧ r.value = d.value := by
  obtain ⟨wholeDigits, wholeNonempty, fractionDigits, -, exponentText, denotes⟩ := h
  rename_i whole fraction tail exponent
  have hpoint : Text.NoDigitFirst ('.' :: (fraction ++ tail)) := rfl
  have hw := Text.spanDecimal_append wholeDigits hpoint
  have hf := Text.spanDecimal_append fractionDigits exponentText.noDigitFirst
  refine ⟨_, ?_, denotes⟩
  rw [Decimal.readUnsigned?]
  simp only [hw, hf, wholeNonempty, false_and, if_false, exponentText.readExponent?_eq,
    Option.map_some]

theorem UnsignedText.readUnsigned? {always : Bool} {cs : List Char} {d : Decimal}
    (h : UnsignedText always cs d) : ∃ r, Decimal.readUnsigned? cs = some r ∧ r.value = d.value := by
  cases h with
  | point h => exact h.readUnsigned?
  | @digit c tail exponent hc exponentText =>
    have hw : Text.spanDecimal (c :: 'e' :: tail) = ([c], 'e' :: tail) :=
      @Text.spanDecimal_append [c] _ (by simp [hc]) exponentText.noDigitFirst
    refine ⟨_, ?_, rfl⟩
    rw [Decimal.readUnsigned?]
    simp [hw, exponentText.readExponent?_eq]

/-! ## Laying out digits -/

theorem padded_toList (width n : Nat) : (Text.padded width n).toList =
    List.replicate (width - (Nat.toDigits 10 n).length) '0' ++ Nat.toDigits 10 n := by
  simp [Text.padded]

theorem exponentText_padded (width : Nat) (e : Int) :
    ExponentText ('e' :: (if e < 0 then '-' else '+') :: (Text.padded width e.natAbs).toList) e := by
  have hall : (Text.padded width e.natAbs).toList.all Text.isPlainDigit = true := by
    rw [padded_toList, List.all_append, Text.all_zeros, Text.all_toDigits]
    rfl
  have hne : (Text.padded width e.natAbs).toList ≠ [] := by
    rw [padded_toList]
    exact List.append_ne_nil_of_right_ne_nil _ Nat.toDigits_ne_nil
  have hnum : Text.numeral (Text.padded width e.natAbs).toList = e.natAbs := by
    rw [padded_toList, Text.numeral_append (Text.all_zeros _) (Text.all_toDigits _),
      Text.numeral_zeros, Text.numeral_toDigits, Nat.zero_mul, Nat.zero_add]
  have he : ExponentText ('e' :: '-' :: (Text.padded width e.natAbs).toList) (-(e.natAbs : Int)) := by
    have := ExponentText.minus hall hne
    rwa [hnum] at this
  have he' : ExponentText ('e' :: '+' :: (Text.padded width e.natAbs).toList) (e.natAbs : Int) := by
    have := ExponentText.plus hall hne
    rwa [hnum] at this
  by_cases h : e < 0
  · have hneg : -(e.natAbs : Int) = e := by omega
    rw [hneg] at he
    rwa [if_pos h]
  · have hpos : (e.natAbs : Int) = e := by omega
    rw [hpos] at he'
    rwa [if_neg h]

theorem value_shift (n k : Nat) (e : Int) : (Decimal.mk (n * 10 ^ k) (e - k)).value = (Decimal.mk n e).value := by
  rw [Decimal.value, Decimal.value, Nat.cast_mul, Nat.cast_pow, zpow_sub₀ (by norm_num), zpow_natCast]
  push_cast
  field_simp

section Digits

variable {ds : List Char} (hd : ds.all Text.isPlainDigit = true)
include hd

/-- Zeros stand between the point and the digits of a value below one. -/
theorem pointText_below (hn : ds ≠ []) {k : Nat} {e : Int} (he : e = -(k + 1 : Int)) :
    PointText ('0' :: '.' :: (List.replicate k '0' ++ ds)) ⟨Text.numeral ds, e - (ds.length - 1)⟩ := by
  have hall : (List.replicate k '0' ++ ds).all Text.isPlainDigit = true := by
    rw [List.all_append, Text.all_zeros, hd]
    rfl
  have hzeros : ['0'] ++ (List.replicate k '0' ++ ds) = List.replicate (k + 1) '0' ++ ds := by
    rw [List.replicate_succ]
    rfl
  rw [← List.append_nil (List.replicate k '0' ++ ds)]
  refine @PointText.intro ['0'] _ _ _ _ (by decide) (by simp) hall
    (List.append_ne_nil_of_right_ne_nil _ hn) .none ?_
  rw [hzeros, Text.numeral_append (Text.all_zeros _) hd, Text.numeral_zeros, Nat.zero_mul, Nat.zero_add,
    List.length_append, List.length_replicate]
  congr 2
  omega

/-- The point stands between the digits. -/
theorem pointText_within {k : Nat} (hk : 0 < k) (hlong : k < ds.length) {e : Int} (he : e = k - 1) :
    PointText (ds.take k ++ '.' :: ds.drop k) ⟨Text.numeral ds, e - (ds.length - 1)⟩ := by
  have hwhole : ds.take k ≠ [] := by
    rw [ne_eq, List.take_eq_nil_iff, not_or]
    exact ⟨by omega, List.ne_nil_of_length_pos (by omega)⟩
  have hfraction : ds.drop k ≠ [] := by
    rw [ne_eq, List.drop_eq_nil_iff]
    omega
  rw [← List.append_nil (ds.drop k)]
  refine .intro (List.all_eq_true.2 fun c hc => List.all_eq_true.1 hd c (List.mem_of_mem_take hc)) hwhole
    (List.all_eq_true.2 fun c hc => List.all_eq_true.1 hd c (List.mem_of_mem_drop hc)) hfraction .none ?_
  rw [List.take_append_drop, List.length_drop]
  congr 2
  omega

/-- Zeros stand between the digits of a whole value and the point. -/
theorem pointText_above (hn : ds ≠ []) {k : Nat} {e : Int} (he : e = ds.length - 1 + k) :
    PointText (ds ++ List.replicate k '0' ++ '.' :: ['0']) ⟨Text.numeral ds, e - (ds.length - 1)⟩ := by
  have hall : (ds ++ List.replicate k '0').all Text.isPlainDigit = true := by
    rw [List.all_append, Text.all_zeros, hd]
    rfl
  have hzeros : ds ++ List.replicate k '0' ++ ['0'] = ds ++ List.replicate (k + 1) '0' := by
    rw [List.replicate_succ', List.append_assoc]
  refine @PointText.intro _ ['0'] [] _ _ hall (List.append_ne_nil_of_left_ne_nil hn _) (by decide) (by simp)
    .none ?_
  rw [hzeros, Text.numeral_append hd (Text.all_zeros _), Text.numeral_zeros, Nat.add_zero, List.length_replicate,
    ← value_shift (Text.numeral ds) (k + 1)]
  congr 2
  simp only [List.length_singleton]
  omega

/-- One digit stands before the point, and an exponent behind the others. -/
theorem pointText_exponent {d : Char} (hone : Text.isPlainDigit d = true) {tail : List Char} {e : Int}
    (htail : ExponentText tail e) :
    PointText (d :: '.' :: ((if ds = [] then ['0'] else ds) ++ tail)) ⟨Text.numeral (d :: ds), e - ds.length⟩ := by
  have hwhole : [d].all Text.isPlainDigit = true := by simp [hone]
  split
  · next hnil =>
    subst hnil
    refine @PointText.intro [d] _ _ _ _ hwhole (by simp) (by decide) (by simp) htail ?_
    have hzero : Text.numeral ['0'] = 0 := Text.numeral_zeros 1
    rw [Text.numeral_append hwhole (by decide), hzero, Nat.add_zero, List.length_singleton,
      ← value_shift (Text.numeral [d]) 1]
    congr 2
    simp
  · next hn => exact @PointText.intro [d] _ _ _ _ hwhole (by simp) hd hn htail rfl

/-- Digits are laid out as a numeral of their value. -/
theorem Layout.unsignedText_digits (layout : Layout) (hn : ds ≠ []) (e : Int) :
    UnsignedText layout.pointBeforeExponent (layout.digits ds e).toList
      ⟨Text.numeral ds, e - (ds.length - 1)⟩ := by
  unfold Layout.digits
  split
  · split
    · next hneg =>
      have htext : (String.ofList ("0.".toList ++ List.replicate (-e - 1).toNat '0' ++ ds)).toList =
          '0' :: '.' :: (List.replicate (-e - 1).toNat '0' ++ ds) := by simp
      rw [htext]
      exact .point (pointText_below hd hn (by omega))
    · next hpos =>
      rw [String.toList_ofList]
      by_cases hlong : e.toNat + 1 < ds.length
      · have hdrop : (ds.drop (e.toNat + 1)).isEmpty = false := by
          rw [List.isEmpty_eq_false_iff, ne_eq, List.drop_eq_nil_iff]
          omega
        have hzero : e.toNat + 1 - ds.length = 0 := by omega
        simp only [hdrop, hzero, Bool.false_eq_true, if_false, List.replicate_zero, List.append_nil]
        exact .point (pointText_within hd (Nat.succ_pos _) hlong (by omega))
      · have hdrop : (ds.drop (e.toNat + 1)).isEmpty = true := by
          rw [List.isEmpty_iff, List.drop_eq_nil_iff]
          omega
        simp only [hdrop, List.take_of_length_le (Nat.le_of_not_lt hlong), if_true]
        have hlen : 0 < ds.length := List.length_pos_iff.2 hn
        exact .point (pointText_above hd hn (by omega))
  · obtain ⟨d, rest, rfl⟩ := List.exists_cons_of_ne_nil hn
    rw [List.all_cons, Bool.and_eq_true] at hd
    have htail := exponentText_padded layout.exponentWidth e
    have htext := pointText_exponent hd.2 hd.1 htail
    have hlength : e - ((d :: rest).length - 1) = e - rest.length := by simp
    have hsign : (if e < 0 then "-" else "+").toList = [if e < 0 then '-' else '+'] := by
      split <;> rfl
    rw [hlength]
    cases rest with
    | nil =>
      cases hp : layout.pointBeforeExponent with
      | true => exact .point (by simpa [hp, hsign] using htext)
      | false => simpa [hp, hsign] using UnsignedText.digit hd.1 htail
    | cons f rest => exact .point (by simpa [hsign] using htext)

end Digits

/-! ## Doubles -/

theorem pointText_zero : PointText "0.0".toList ⟨0, 0⟩ := by
  have hzero : Text.numeral (['0'] ++ ['0']) = 0 := Text.numeral_zeros 2
  refine @PointText.intro ['0'] ['0'] [] 0 _ (by decide) (by simp) (by decide) (by simp) .none ?_
  rw [hzero, Decimal.value, Decimal.value, Nat.cast_zero, zero_mul, zero_mul]

theorem Layout.render_nonzero (layout : Layout) (negative : Bool) {m : Nat} {e : Int} (h : OnGrid m e)
    (hm : m ≠ 0) : ∃ d, d = shortest (m * powerOfTwo e.toNat) (powerOfTwo (-e).toNat) ∧
      layout.render (.finite negative m e h) = (if negative then "-" else "") ++
        layout.digits (Nat.toDigits 10 d.digits) (d.exponent + (Nat.toDigits 10 d.digits).length - 1) := by
  refine ⟨_, rfl, ?_⟩
  exact if_neg hm

/-- The text of a finite double: a sign and a numeral that is read as the double. -/
theorem Layout.render_unsigned (layout : Layout) (negative : Bool) {m : Nat} {e : Int} (h : OnGrid m e) :
    ∃ cs d, UnsignedText layout.pointBeforeExponent cs d ∧
      (∀ sign, d.toBinary64 sign = .finite sign m e h) ∧
      (layout.render (.finite negative m e h)).toList = (if negative then ['-'] else []) ++ cs := by
  have hsign : (if negative then "-" else "").toList = if negative then ['-'] else [] := by
    cases negative <;> rfl
  by_cases hm : m = 0
  · subst hm
    have he : e = -1074 := by
      rcases h.2.2.2 with h0 | h0
      · exact absurd h0 (by simp)
      · exact h0
    subst he
    refine ⟨_, _, .point pointText_zero, fun sign => by rw [Decimal.toBinary64, if_pos (.inl rfl), Binary64.zero],
      ?_⟩
    rw [← hsign, ← String.toList_append]
    rfl
  · obtain ⟨d, hs, ht⟩ := render_nonzero layout negative h hm
    have hread (sign : Bool) : d.toBinary64 sign = .finite sign m e h := by
      rw [hs]
      exact (shortest_toBinary64 h (Nat.pos_of_ne_zero hm) sign).2
    have htext := unsignedText_digits (Text.all_toDigits d.digits) layout Nat.toDigits_ne_nil
      (d.exponent + (Nat.toDigits 10 d.digits).length - 1)
    have hexp : d.exponent + ((Nat.toDigits 10 d.digits).length : Int) - 1 -
        ((Nat.toDigits 10 d.digits).length - 1) = d.exponent := by omega
    rw [Text.numeral_toDigits, hexp] at htext
    refine ⟨_, d, htext, hread, ?_⟩
    rw [ht, String.toList_append, hsign]

/-- Where a point stands before every exponent, the numeral has one. -/
theorem Layout.render_finite {layout : Layout} (hp : layout.pointBeforeExponent = true) (negative : Bool)
    {m : Nat} {e : Int} (h : OnGrid m e) :
    ∃ cs d, PointText cs d ∧ (∀ sign, d.toBinary64 sign = .finite sign m e h) ∧
      (layout.render (.finite negative m e h)).toList = (if negative then ['-'] else []) ++ cs := by
  obtain ⟨cs, d, htext, hread, ht⟩ := layout.render_unsigned negative h
  rw [hp] at htext
  exact ⟨cs, d, htext.pointText, hread, ht⟩

end PipelineTemplate.Number
