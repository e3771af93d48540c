import Mathlib
import PipelineTemplate.Proofs.Number.Layout
import PipelineTemplate.Proofs.Number.Order
import PipelineTemplate.Proofs.Yaml.Numeral
import PipelineTemplate.Value.Coercion

/-!
# Numbers and their texts

The text of a finite double is read back as this double. The text of a whole number is read as the
double nearest to it, which is a different number where no double has its value. Two numbers have one
text exactly if they are of the same rank.
-/

namespace PipelineTemplate

namespace Number

/-! ## Reading numerals -/

namespace Decimal

/-- A whole number of whatever size is rounded to its nearest double. -/
theorem toBinary64_whole (negative : Bool) (a : Nat) : toBinary64 negative ⟨a, 0⟩ = .round negative a 1 := by
  have hlarge (h : 310 < (⟨a, 0⟩ : Decimal).magnitude) (ha : a ≠ 0) :
      Binary64.round negative a 1 = .infinite negative := by
    have hpos : 0 < a := Nat.pos_of_ne_zero ha
    have hone : (a : ℚ) / (1 : Nat) = a := by simp
    have hvalue : (⟨a, 0⟩ : Decimal).value = a := by simp [value]
    have hlog := magnitude_eq (d := ⟨a, 0⟩) ha
    rw [hvalue] at hlog
    have hten : (10 : ℚ) ^ (309 : Int) ≤ a := by
      have hle : 309 ≤ Int.log 10 (a : ℚ) := by omega
      exact_mod_cast (Int.zpow_le_iff_le_log (by decide) (by exact_mod_cast hpos)).2 hle
    -- The grid of such a value lies beyond the last grid of doubles.
    have hgrid := gridExponent_eq hpos one_pos
    have htwo : 1025 ≤ Int.log 2 (a : ℚ) := by
      have hle : (2 : ℚ) ^ (1025 : Int) ≤ a := calc
        (2 : ℚ) ^ (1025 : Int) = (2 : ℚ) ^ (1024 : Int) * 2 := zpow_add_one₀ (by norm_num) 1024
        _ ≤ 10 ^ (309 : Int) := greatest_double
        _ ≤ a := hten
      exact (Int.zpow_le_iff_le_log (by decide) (by exact_mod_cast hpos)).1 (by exact_mod_cast hle)
    rw [hone] at hgrid
    have hexp : 971 < gridExponent a 1 := by omega
    rw [Binary64.round, if_neg ha]
    simp only
    rw [dif_neg fun h => by have := h.2.2.1; omega, dif_neg fun h => by have := h.2.2.1; omega]
  have hmin : ¬ (⟨a, 0⟩ : Decimal).magnitude < -330 := by
    simp only [magnitude]
    omega
  unfold toBinary64
  by_cases ha : a = 0
  · subst ha
    rw [if_pos (.inl rfl), Binary64.round, if_pos rfl]
  · rw [if_neg (by simp [ha, hmin])]
    split
    · next h => exact (hlarge h ha).symm
    · simp

theorem read?_sign (negative : Bool) {c : Char} (hc : Text.isPlainDigit c = true) (cs : List Char) :
    read? ((if negative then ['-'] else []) ++ c :: cs) = (readUnsigned? (c :: cs)).map (negative, ·) := by
  cases negative with
  | true => rfl
  | false =>
    have hne (sign : Char) (hs : Text.isPlainDigit sign = false) : c ≠ sign := by
      rintro rfl
      rw [hc] at hs
      cases hs
    have hminus : c ≠ '-' := hne _ (by decide)
    have hplus : c ≠ '+' := hne _ (by decide)
    simp [read?, hminus, hplus]

theorem readUnsigned?_digits {ds : List Char} (hd : ds.all Text.isPlainDigit = true) (hn : ds ≠ []) :
    readUnsigned? ds = some ⟨Text.numeral ds, 0⟩ := by
  simp [readUnsigned?, Text.spanDecimal_digits hd, hn, readExponent?]

end Decimal

namespace UnsignedText

variable {always : Bool} {cs : List Char} {d : Decimal}

/-- The numeral behind a sign has the characters of numerals only. -/
theorem isNumeral (h : UnsignedText always cs d) (negative : Bool) :
    Yaml.IsNumeral ((if negative then ['-'] else []) ++ cs) := by
  have both : Yaml.IsNumeral cs ∧ Yaml.IsNumeral ('-' :: cs) := by
    cases h with
    | point h => exact Yaml.isNumeral_pointText h
    | digit hc exponentText =>
      exact ⟨.unsigned hc (Yaml.all_exponentText exponentText), .minus hc (Yaml.all_exponentText exponentText)⟩
  cases negative with
  | true => exact both.2
  | false => exact both.1

theorem exists_first (h : UnsignedText always cs d) :
    ∃ c rest, cs = c :: rest ∧ Text.isPlainDigit c = true := by
  cases h with
  | digit hc _ => exact ⟨_, _, rfl, hc⟩
  | point h =>
    obtain ⟨wholeDigits, wholeNonempty, -, -, -, -⟩ := h
    obtain ⟨c, whole, rfl⟩ := List.exists_cons_of_ne_nil wholeNonempty
    rw [List.all_cons, Bool.and_eq_true] at wholeDigits
    exact ⟨c, _, rfl, wholeDigits.1⟩

/-- A point or an exponent sets the numeral of a double apart from the digits of a whole number. -/
theorem exists_mark (h : UnsignedText always cs d) : ∃ c ∈ cs, c = '.' ∨ c = 'e' := by
  cases h with
  | digit hc _ => exact ⟨'e', by simp, .inr rfl⟩
  | point h =>
    obtain ⟨-, -, -, -, -, -⟩ := h
    exact ⟨'.', by simp, .inl rfl⟩

theorem readBinary64? (h : UnsignedText always cs d) (negative : Bool) :
    readBinary64? ((if negative then ['-'] else []) ++ cs) = some (d.toBinary64 negative) := by
  obtain ⟨r, hr, hv⟩ := h.readUnsigned?
  obtain ⟨c, rest, rfl, hc⟩ := h.exists_first
  rw [Number.readBinary64?, Decimal.read?_sign negative hc, hr, Option.map_some, Option.map_some]
  exact congrArg some (Decimal.toBinary64_congr hv negative)

end UnsignedText

/-- A finite double is read back from its text. -/
theorem readBinary64?_render (layout : Layout) (negative : Bool) {m : Nat} {e : Int} (h : OnGrid m e) :
    readBinary64? (layout.render (.finite negative m e h)).toList = some (.finite negative m e h) ∧
      Yaml.IsNumeral (layout.render (.finite negative m e h)).toList ∧
      ∃ c ∈ (layout.render (.finite negative m e h)).toList, c = '.' ∨ c = 'e' := by
  obtain ⟨cs, d, htext, hread, ht⟩ := layout.render_unsigned negative h
  obtain ⟨c, hc, hmark⟩ := htext.exists_mark
  rw [ht]
  exact ⟨(htext.readBinary64? negative).trans (congrArg some (hread negative)), htext.isNumeral negative,
    c, List.mem_append_right _ hc, hmark⟩

/-- A whole number is read from its digits as the double nearest to it. -/
theorem readBinary64?_ofInt (n : Int) :
    readBinary64? (Text.ofInt n).toList = some (Binary64.nearest n) := by
  have hdigits := Decimal.readUnsigned?_digits (Text.all_toDigits n.natAbs) Nat.toDigits_ne_nil
  have htext : (Text.ofInt n).toList =
      (if decide (n < 0) then ['-'] else []) ++ Nat.toDigits 10 n.natAbs := by
    rw [Text.ofInt_toList]
    by_cases h : n < 0 <;> simp [h]
  obtain ⟨c, rest, hc⟩ := List.exists_cons_of_ne_nil (Nat.toDigits_ne_nil (b := 10) (n := n.natAbs))
  have hfirst : Text.isPlainDigit c = true := by
    have hall := Text.all_toDigits n.natAbs
    rw [hc, List.all_cons, Bool.and_eq_true] at hall
    exact hall.1
  rw [htext, readBinary64?, hc, Decimal.read?_sign _ hfirst, ← hc, hdigits, Text.numeral_toDigits,
    Option.map_some, Option.map_some, Binary64.nearest_eq]
  exact congrArg some (Decimal.toBinary64_whole ..)

end Number

/-! ## Numbers as texts -/

namespace Number.Numeric

/-- The text of a number that is a whole number. -/
theorem text_whole {a : Numeric} {n : Int} (h : a.toRat? = some (n : ℚ)) : a.text = Text.ofInt n := by
  cases a with
  | int m =>
    have hm : m = n := by
      have hq : (m : ℚ) = n := Option.some.inj h
      exact_mod_cast hq
    rw [hm]
    rfl
  | float x =>
    have hn : x.toInt? = some n := Binary64.toInt?_eq_some.2 h
    cases x with
    | finite negative m e hg => simp only [text, hn]
    | infinite negative => cases h
    | nan => cases h

/-- The text of a number that is neither whole nor infinite nor NaN. -/
theorem text_fraction {a : Numeric} {r : ℚ} (h : a.toRat? = some r) (hr : ∀ n : Int, r ≠ n) :
    ∃ negative m e, ∃ hg : OnGrid m e, a = .float (.finite negative m e hg) ∧
      a.text = literalLayout.render (.finite negative m e hg) ∧ (Binary64.finite negative m e hg).toInt? = none := by
  cases a with
  | int m => exact absurd (Option.some.inj h).symm (hr m)
  | float x =>
    have hn : x.toInt? = none := by
      cases hi : x.toInt? with
      | none => rfl
      | some n =>
        have hq := Binary64.toInt?_eq_some.1 hi
        exact absurd (Option.some.inj (h.symm.trans hq)) (hr n)
    cases x with
    | finite negative m e hg => exact ⟨negative, m, e, hg, rfl, by simp only [text, hn], hn⟩
    | infinite negative => cases h
    | nan => cases h

/-- The kinds of numbers: whole numbers, other finite numbers and infinities. -/
theorem whole_or_fraction_or_infinite {a : Numeric} (h : a.isNaN = false) :
    (∃ n : Int, a.toRat? = some (n : ℚ)) ∨ (∃ r, a.toRat? = some r ∧ ∀ n : Int, r ≠ n) ∨
      ∃ negative, a = .float (.infinite negative) := by
  rcases finite_or_infinite h with ⟨r, hr⟩ | hinf
  · by_cases hw : ∃ n : Int, r = n
    · obtain ⟨n, rfl⟩ := hw
      exact .inl ⟨n, hr⟩
    · exact .inr (.inl ⟨r, hr, fun n hn => hw ⟨n, hn⟩⟩)
  · exact .inr (.inr hinf)

theorem ofInt_injective {m n : Int} (h : Text.ofInt m = Text.ofInt n) : m = n := by
  have hm := readWhole?_ofInt m
  rw [h, readWhole?_ofInt n] at hm
  exact (Option.some.inj hm).symm

theorem ofInt_ne_marked {n : Int} {s : String} (hs : ∃ c ∈ s.toList, c = '.' ∨ c = 'e') : Text.ofInt n ≠ s := by
  rintro rfl
  obtain ⟨c, hc, hmark⟩ := hs
  rw [Text.ofInt_toList] at hc
  have hdigit : c ∈ Nat.toDigits 10 n.natAbs := by
    split at hc
    · rcases List.mem_cons.1 hc with rfl | hc
      · simp at hmark
      · exact hc
    · exact hc
  have hplain := Text.isPlainDigit_of_mem_toDigits hdigit
  rcases hmark with rfl | rfl <;> exact absurd hplain (by decide)

/-- The text of an infinity is no numeral. -/
theorem infinite_ne_numeral {s : String} (hs : Yaml.IsNumeral s.toList) (negative : Bool) :
    (if negative then "-Infinity" else "Infinity") ≠ s := by
  rintro rfl
  have hall := hs.all_chars
  cases negative <;> exact absurd hall (by decide)

theorem text_infinite (negative : Bool) :
    text (.float (.infinite negative)) = if negative then "-Infinity" else "Infinity" := rfl

/-- Numbers have one text exactly if they are of one rank. -/
theorem text_eq_iff {a b : Numeric} (ha : a.isNaN = false) (hb : b.isNaN = false) :
    a.text = b.text ↔ a.rank = b.rank := by
  rcases whole_or_fraction_or_infinite ha with ⟨m, hm⟩ | ⟨r, hr, hf⟩ | ⟨p, rfl⟩ <;>
    rcases whole_or_fraction_or_infinite hb with ⟨n, hn⟩ | ⟨s, hs, hg⟩ | ⟨q, rfl⟩
  case inl.inl =>
    rw [text_whole hm, text_whole hn, rank_of_toRat? hm, rank_of_toRat? hn]
    constructor
    · intro h
      rw [ofInt_injective h]
    · intro h
      have hq : (m : ℚ) = n := by exact_mod_cast h
      rw [Int.cast_injective hq]
  case inl.inr.inl =>
    obtain ⟨neg, k, e, hgrid, -, ht, -⟩ := text_fraction hs hg
    have hmark := (readBinary64?_render literalLayout neg hgrid).2.2
    rw [text_whole hm, ht, rank_of_toRat? hm, rank_of_toRat? hs]
    refine iff_of_false (ofInt_ne_marked hmark) fun h => hg m ?_
    exact (by exact_mod_cast h : (m : ℚ) = s).symm
  case inl.inr.inr =>
    rw [text_whole hm, text_infinite, rank_of_toRat? hm, rank_infinite]
    refine iff_of_false (infinite_ne_numeral (Yaml.isNumeral_ofInt m) q).symm ?_
    cases q <;> simp
  case inr.inl.inl =>
    obtain ⟨neg, k, e, hgrid, -, ht, -⟩ := text_fraction hr hf
    have hmark := (readBinary64?_render literalLayout neg hgrid).2.2
    rw [text_whole hn, ht, rank_of_toRat? hn, rank_of_toRat? hr]
    refine iff_of_false (ofInt_ne_marked hmark).symm fun h => hf n ?_
    exact_mod_cast h
  case inr.inl.inr.inl =>
    obtain ⟨neg, k, e, hgrid, hx, ht, -⟩ := text_fraction hr hf
    obtain ⟨neg', k', e', hgrid', hy, ht', -⟩ := text_fraction hs hg
    have hread := (readBinary64?_render literalLayout neg hgrid).1
    have hread' := (readBinary64?_render literalLayout neg' hgrid').1
    rw [rank_of_toRat? hr, rank_of_toRat? hs]
    constructor
    · intro h
      rw [ht, ht'] at h
      rw [h, hread', Option.some.injEq] at hread
      have hab : b = a := by rw [hx, hy, hread]
      rw [hab, hr, Option.some.injEq] at hs
      rw [hs]
    · intro h
      have hq : r = s := by exact_mod_cast h
      subst hq
      have hnz : r ≠ 0 := by exact_mod_cast hf 0
      have hvalue : (Binary64.finite neg k e hgrid).toRat? = some r := by rw [← hr, hx]; rfl
      have hvalue' : (Binary64.finite neg' k' e' hgrid').toRat? = some r := by rw [← hs, hy]; rfl
      rw [ht, ht', ← Binary64.ofRat_eq hvalue hnz, ← Binary64.ofRat_eq hvalue' hnz]
  case inr.inl.inr.inr =>
    obtain ⟨neg, k, e, hgrid, -, ht, -⟩ := text_fraction hr hf
    have hnum := (readBinary64?_render literalLayout neg hgrid).2.1
    rw [ht, text_infinite, rank_of_toRat? hr, rank_infinite]
    refine iff_of_false (infinite_ne_numeral hnum q).symm ?_
    cases q <;> simp
  case inr.inr.inl =>
    rw [text_whole hn, text_infinite, rank_of_toRat? hn, rank_infinite]
    refine iff_of_false (infinite_ne_numeral (Yaml.isNumeral_ofInt n) p) ?_
    cases p <;> simp
  case inr.inr.inr.inl =>
    obtain ⟨neg, k, e, hgrid, -, ht, -⟩ := text_fraction hs hg
    have hnum := (readBinary64?_render literalLayout neg hgrid).2.1
    rw [ht, text_infinite, rank_of_toRat? hs, rank_infinite]
    refine iff_of_false (infinite_ne_numeral hnum p) ?_
    cases p <;> simp
  case inr.inr.inr.inr => cases p <;> cases q <;> simp [text_infinite]

end Number.Numeric

end PipelineTemplate
