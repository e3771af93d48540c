import Mathlib
import PipelineTemplate.Number.Decimal
import PipelineTemplate.Proofs.Number.Rounding

/-!
# Shortest digits

The digits that are found for a double are read back as this double: seventeen significant digits are
always enough, since they come closer to it than half of the gap to the next one.
-/

namespace PipelineTemplate.Number

namespace Decimal

/-- The exact value. -/
def value (d : Decimal) : ℚ := d.digits * (10 : ℚ) ^ d.exponent

theorem value_pos {d : Decimal} (h : d.digits ≠ 0) : 0 < d.value := by
  have hd : (0 : ℚ) < d.digits := by exact_mod_cast Nat.pos_of_ne_zero h
  rw [value]
  positivity

theorem fraction_value (d : Decimal) :
    ((d.digits * powerOfTen d.exponent.toNat : Nat) : ℚ) / (powerOfTen (-d.exponent).toNat : Nat) =
      d.value := by
  have hs := scale_eq 10 (by decide) (-d.exponent)
  rw [neg_neg] at hs
  simp only [powerOfTen_eq, Nat.cast_mul, Nat.cast_pow] at hs ⊢
  rw [mul_div_assoc, hs]
  norm_num [value]

theorem digits_bounds {n : Nat} (h : n ≠ 0) :
    10 ^ ((Nat.toDigits 10 n).length - 1) ≤ n ∧ n < 10 ^ (Nat.toDigits 10 n).length := by
  have hlen : 0 < (Nat.toDigits 10 n).length := Nat.length_toDigits_pos
  refine ⟨?_, (Nat.length_toDigits_le_iff (by decide) hlen).1 (Nat.le_refl _)⟩
  by_cases hone : (Nat.toDigits 10 n).length = 1
  · rw [hone]
    omega
  · by_contra hlt
    have := (Nat.length_toDigits_le_iff (b := 10) (n := n) (by decide)
      (show 0 < (Nat.toDigits 10 n).length - 1 by omega)).2 (by omega)
    omega

/-- The magnitude depends on the value only. -/
theorem magnitude_eq {d : Decimal} (h : d.digits ≠ 0) : d.magnitude = Int.log 10 d.value + 1 := by
  have hb := digits_bounds h
  have hlen : 0 < (Nat.toDigits 10 d.digits).length := Nat.length_toDigits_pos
  have hv := value_pos h
  have hl : ((10 : ℕ) : ℚ) ^ (d.magnitude - 1) ≤ d.value := by
    have hd : (10 : ℚ) ^ ((Nat.toDigits 10 d.digits).length - 1) ≤ d.digits := by exact_mod_cast hb.1
    have he : d.magnitude - 1 = ((Nat.toDigits 10 d.digits).length - 1 : Nat) + d.exponent := by
      rw [magnitude]
      omega
    rw [he, zpow_add₀ (by norm_num), value, zpow_natCast]
    push_cast
    gcongr
  have hu : d.value < ((10 : ℕ) : ℚ) ^ d.magnitude := by
    have hd : (d.digits : ℚ) < (10 : ℚ) ^ (Nat.toDigits 10 d.digits).length := by exact_mod_cast hb.2
    rw [magnitude, zpow_add₀ (by norm_num), value, zpow_natCast]
    push_cast
    gcongr
  have h1 := (Int.zpow_le_iff_le_log (by decide) hv).1 hl
  have h2 := (Int.lt_zpow_iff_log_lt (by decide) hv).1 hu
  omega

/-- The double of a decimal depends on its value only. -/
theorem toBinary64_congr {d e : Decimal} (h : d.value = e.value) (negative : Bool) :
    d.toBinary64 negative = e.toBinary64 negative := by
  have hz (f : Decimal) : f.digits = 0 ↔ f.value = 0 := by
    have hp : (10 : ℚ) ^ f.exponent ≠ 0 := by positivity
    simp [value, hp]
  have hdigits : d.digits = 0 ↔ e.digits = 0 := by rw [hz, hz, h]
  by_cases hd : d.digits = 0
  · rw [toBinary64, toBinary64, if_pos (.inl hd), if_pos (.inl (hdigits.1 hd))]
  · have he : e.digits ≠ 0 := fun he => hd (hdigits.2 he)
    have hm : d.magnitude = e.magnitude := by rw [magnitude_eq hd, magnitude_eq he, h]
    have hr := Binary64.round_congr negative (by simp : 0 < powerOfTen (-d.exponent).toNat)
      (by simp : 0 < powerOfTen (-e.exponent).toNat)
      ((fraction_value d).trans (h.trans (fraction_value e).symm))
    simp only [toBinary64, hd, he, hm, hr]

/-- A decimal whose magnitude is within the range of doubles is rounded. -/
theorem toBinary64_eq_round {d : Decimal} (negative : Bool) (hd : d.digits ≠ 0)
    (hl : (10 : ℚ) ^ (-324 : Int) ≤ d.value) (hu : d.value < (10 : ℚ) ^ (309 : Int)) :
    d.toBinary64 negative =
      .round negative (d.digits * powerOfTen d.exponent.toNat) (powerOfTen (-d.exponent).toNat) := by
  have hv := value_pos hd
  have h1 : -324 ≤ Int.log 10 d.value := (Int.zpow_le_iff_le_log (by decide) hv).1 (by exact_mod_cast hl)
  have h2 : Int.log 10 d.value < 309 := (Int.lt_zpow_iff_log_lt (by decide) hv).1 (by exact_mod_cast hu)
  have hm := magnitude_eq hd
  rw [toBinary64, if_neg (by rw [not_or]; exact ⟨hd, by omega⟩), if_neg (by omega)]

end Decimal

/-! ## Doubles and their values -/

/-- The value of a pair on the grid. -/
def gridValue (m : Nat) (e : Int) : ℚ := m * (2 : ℚ) ^ e

theorem gridValue_pos {m : Nat} (hm : 0 < m) (e : Int) : 0 < gridValue m e := by
  have : (0 : ℚ) < m := by exact_mod_cast hm
  rw [gridValue]
  positivity

theorem gridValue_fraction (m : Nat) (e : Int) :
    ((m * powerOfTwo e.toNat : Nat) : ℚ) / (powerOfTwo (-e).toNat : Nat) = gridValue m e := by
  have hs := scale_eq 2 (by decide) (-e)
  rw [neg_neg] at hs
  simp only [powerOfTwo_eq, Nat.cast_mul, Nat.cast_pow] at hs ⊢
  rw [mul_div_assoc, hs]
  norm_num [gridValue]

theorem gridValue_bounds {m : Nat} {e : Int} (h : OnGrid m e) (hm : 0 < m) :
    (2 : ℚ) ^ (-1074 : Int) ≤ gridValue m e ∧ gridValue m e < (2 : ℚ) ^ (1024 : Int) := by
  have hm1 : (1 : ℚ) ≤ m := by exact_mod_cast hm
  have hm53 : (m : ℚ) < (2 : ℚ) ^ (53 : Int) := by
    have hlt := h.1
    simp only [powerOfTwo_eq] at hlt
    exact_mod_cast hlt
  constructor
  · calc (2 : ℚ) ^ (-1074 : Int) ≤ (2 : ℚ) ^ e := zpow_le_zpow_right₀ (by norm_num) h.2.1
      _ = 1 * (2 : ℚ) ^ e := (one_mul _).symm
      _ ≤ m * (2 : ℚ) ^ e := by gcongr
  · calc (m : ℚ) * (2 : ℚ) ^ e < (2 : ℚ) ^ (53 : Int) * (2 : ℚ) ^ e := by gcongr
      _ = (2 : ℚ) ^ (53 + e) := (zpow_add₀ (by norm_num) _ _).symm
      _ ≤ (2 : ℚ) ^ (1024 : Int) := zpow_le_zpow_right₀ (by norm_num) (by have := h.2.2.1; omega)

/-- A double is rounded to itself. -/
theorem Binary64.round_gridValue {m : Nat} {e : Int} (h : OnGrid m e) (hm : 0 < m) (negative : Bool) :
    round negative (m * powerOfTwo e.toNat) (powerOfTwo (-e).toNat) = .finite negative m e h := by
  have hp : (0 : ℚ) < (2 : ℚ) ^ e := by positivity
  apply round_near h hm (by simp) negative
  · rw [gridValue_fraction, gridValue]
    nlinarith
  · rw [gridValue_fraction, gridValue]
    nlinarith
  · intro _
    rw [gridValue_fraction, gridValue]
    nlinarith

theorem least_double : (10 : ℚ) ^ (-324 : Int) ≤ (2 : ℚ) ^ (-1074 : Int) / 2 := by
  have hnat : 2 ^ 1075 ≤ 10 ^ 324 := by decide +kernel
  have hq : ((2 ^ 1075 : ℕ) : ℚ) ≤ ((10 ^ 324 : ℕ) : ℚ) := Nat.cast_le.2 hnat
  have htwo : (2 : ℚ) ^ (-1074 : Int) / 2 = ((2 ^ 1075 : ℕ) : ℚ)⁻¹ := by
    rw [Nat.cast_pow, zpow_neg, pow_succ, mul_inv, div_eq_mul_inv]
    rfl
  have hten : (10 : ℚ) ^ (-324 : Int) = ((10 ^ 324 : ℕ) : ℚ)⁻¹ := by
    rw [Nat.cast_pow, zpow_neg]
    rfl
  rw [htwo, hten]
  exact inv_anti₀ (by positivity) hq

theorem greatest_double : (2 : ℚ) ^ (1024 : Int) * 2 ≤ (10 : ℚ) ^ (309 : Int) := by
  have hnat : 2 ^ 1024 * 2 ≤ 10 ^ 309 := by decide +kernel
  have hq : ((2 ^ 1024 * 2 : ℕ) : ℚ) ≤ ((10 ^ 309 : ℕ) : ℚ) := Nat.cast_le.2 hnat
  rw [Nat.cast_mul, Nat.cast_pow, Nat.cast_pow] at hq
  exact hq

/-- A decimal that differs from a double by less than a part in `2 * 10 ^ 16` is read as the double. -/
theorem Decimal.toBinary64_near {m : Nat} {e : Int} (h : OnGrid m e) (hm : 0 < m) {d : Decimal}
    (hd : d.digits ≠ 0) (hn : |d.value - gridValue m e| * (2 * 10 ^ 16) ≤ gridValue m e)
    (negative : Bool) : d.toBinary64 negative = .finite negative m e h := by
  have hv := gridValue_pos hm e
  obtain ⟨hleast, hgreatest⟩ := gridValue_bounds h hm
  have hp : (0 : ℚ) < (2 : ℚ) ^ e := by positivity
  obtain ⟨hbelow, habove⟩ := abs_le.1 (le_refl |d.value - gridValue m e|)
  have hm53 : (m : ℚ) < 2 ^ 53 := by
    have hlt := h.1
    simp only [powerOfTwo_eq] at hlt
    exact_mod_cast hlt
  have hlow : (10 : ℚ) ^ (-324 : Int) ≤ d.value := by
    calc (10 : ℚ) ^ (-324 : Int) ≤ (2 : ℚ) ^ (-1074 : Int) / 2 := least_double
      _ ≤ gridValue m e / 2 := by gcongr
      _ ≤ d.value := by linarith
  have hup : d.value < (10 : ℚ) ^ (309 : Int) := by
    calc d.value ≤ gridValue m e * 2 := by linarith
      _ < (2 : ℚ) ^ (1024 : Int) * 2 := by gcongr
      _ ≤ (10 : ℚ) ^ (309 : Int) := greatest_double
  have hgap : gridValue m e < 10 ^ 16 * (2 : ℚ) ^ e := by
    rw [gridValue]
    nlinarith
  rw [toBinary64_eq_round negative hd hlow hup]
  apply Binary64.round_near h hm (by simp) negative
  · rw [fraction_value]
    rw [gridValue] at *
    linarith
  · rw [fraction_value]
    rw [gridValue] at *
    linarith
  · intro hfirst
    rw [fraction_value]
    have hfirst' : gridValue m e = 2 ^ 52 * (2 : ℚ) ^ e := by
      rw [gridValue, hfirst]
      norm_num
    rw [gridValue] at *
    linarith

/-! ## Seventeen digits -/

/-- The decade of a fraction is that of its value. -/
theorem decade_bounds {num den : Nat} (hd : 0 < den) (hl : (10 : ℚ) ^ (-400 : Int) ≤ num / den) :
    (10 : ℚ) ^ decade num den ≤ num / den := by
  have hqd : (0 : ℚ) < den := by exact_mod_cast hd
  have hscaled : ((num * 10 ^ 400 : Nat) : ℚ) / den = num / den * (10 : ℚ) ^ (400 : Int) := by
    rw [Nat.cast_mul, Nat.cast_pow, mul_div_right_comm]
    rfl
  have hpos : num * 10 ^ 400 / den ≠ 0 := by
    have h1 : (1 : ℚ) ≤ ((num * 10 ^ 400 : Nat) : ℚ) / den := by
      rw [hscaled]
      calc (1 : ℚ) = (10 : ℚ) ^ (-400 : Int) * (10 : ℚ) ^ (400 : Int) := by
            rw [← zpow_add₀ (by norm_num)]
            rfl
        _ ≤ num / den * (10 : ℚ) ^ (400 : Int) := by gcongr
    rw [le_div_iff₀ hqd, one_mul] at h1
    have h2 : den ≤ num * 10 ^ 400 := by exact_mod_cast h1
    exact (Nat.div_pos h2 hd).ne'
  obtain ⟨hdigits, -⟩ := Decimal.digits_bounds hpos
  have hlen : 0 < (Nat.toDigits 10 (num * 10 ^ 400 / den)).length := Nat.length_toDigits_pos
  have hfloor : ((num * 10 ^ 400 / den : Nat) : ℚ) ≤ num / den * (10 : ℚ) ^ (400 : Int) := by
    rw [← hscaled]
    exact Nat.cast_div_le
  have hq : ((10 ^ ((Nat.toDigits 10 (num * 10 ^ 400 / den)).length - 1) : Nat) : ℚ) ≤
      ((num * 10 ^ 400 / den : Nat) : ℚ) := Nat.cast_le.2 hdigits
  have he : (10 : ℚ) ^ decade num den * (10 : ℚ) ^ (400 : Int) =
      ((10 ^ ((Nat.toDigits 10 (num * 10 ^ 400 / den)).length - 1) : Nat) : ℚ) := by
    rw [← zpow_add₀ (by norm_num), Nat.cast_pow, ← zpow_natCast, decade, powerOfTen_eq]
    congr 1
    omega
  have hp : (0 : ℚ) < (10 : ℚ) ^ (400 : Int) := by positivity
  rw [← mul_le_mul_iff_left₀ hp, he]
  exact hq.trans hfloor

theorem nearestEven_error {num den : Nat} (hd : 0 < den) :
    |(nearestEven num den : ℚ) - num / den| ≤ 1 / 2 := by
  have hqd : (0 : ℚ) < den := by exact_mod_cast hd
  have hsplit := Nat.div_add_mod num den
  have hrem := Nat.mod_lt num hd
  have hbounds : 2 * den * nearestEven num den ≤ 2 * num + den ∧
      2 * num ≤ 2 * den * nearestEven num den + den := by
    unfold nearestEven
    generalize num / den = q at hsplit ⊢
    generalize num % den = r at hsplit hrem ⊢
    subst hsplit
    simp only
    split
    · constructor <;> nlinarith
    · split
      · constructor <;> nlinarith
      · have hmod := Nat.mod_lt q (show 0 < 2 by decide)
        rcases (show q % 2 = 0 ∨ q % 2 = 1 by omega) with hq | hq <;> rw [hq] <;>
          constructor <;> nlinarith
  have h1 : (2 * den * nearestEven num den : ℚ) ≤ 2 * num + den := by exact_mod_cast hbounds.1
  have h2 : (2 * num : ℚ) ≤ 2 * den * nearestEven num den + den := by exact_mod_cast hbounds.2
  have hmul : (num : ℚ) / den * den = num := by field_simp
  rw [abs_le]
  constructor <;> nlinarith

theorem nearestEven_mem_neighbours (num den : Nat) (e : Int) :
    nearestEven (num * powerOfTen (-e).toNat) (den * powerOfTen e.toNat) ∈ neighbours num den e := by
  unfold neighbours
  simp only
  split
  · rename_i hbelow
    rw [hbelow]
    exact List.mem_cons_self
  · have hor : nearestEven (num * powerOfTen (-e).toNat) (den * powerOfTen e.toNat) =
        num * powerOfTen (-e).toNat / (den * powerOfTen e.toNat) ∨
        nearestEven (num * powerOfTen (-e).toNat) (den * powerOfTen e.toNat) =
          num * powerOfTen (-e).toNat / (den * powerOfTen e.toNat) + 1 := by
      unfold nearestEven
      simp only
      split
      · exact .inl rfl
      · split
        · exact .inr rfl
        · omega
    rcases hor with hor | hor
    · exact absurd hor ‹_›
    · rw [hor]
      simp

theorem dropZeros_value (fuel : Nat) (d : Decimal) : (dropZeros fuel d).value = d.value := by
  induction fuel generalizing d with
  | zero => rfl
  | succ fuel ih =>
    rw [dropZeros]
    split
    · rename_i h
      rw [ih, Decimal.value, Decimal.value]
      have hten : (d.digits : ℚ) = (d.digits / 10 : Nat) * 10 := by
        exact_mod_cast (Nat.div_mul_cancel (Nat.dvd_of_mod_eq_zero h.2)).symm
      rw [hten, zpow_add₀ (by norm_num)]
      ring
    · rfl

theorem dropZeros_digits {fuel : Nat} {d : Decimal} (h : d.digits ≠ 0) : (dropZeros fuel d).digits ≠ 0 := by
  intro hz
  have hv := dropZeros_value fuel d
  rw [Decimal.value, hz, Nat.cast_zero, zero_mul] at hv
  exact (Decimal.value_pos h).ne hv

theorem Binary64.round_true (num den : Nat) : round true num den = (round false num den).neg := by
  simp only [round]
  split
  · rfl
  · split
    · rfl
    · split <;> rfl

theorem Decimal.toBinary64_true (d : Decimal) : d.toBinary64 true = (d.toBinary64 false).neg := by
  simp only [toBinary64]
  split
  · rfl
  · split
    · rfl
    · exact Binary64.round_true ..

/-- The candidate with seventeen digits is read back. -/
theorem exists_candidate {m : Nat} {e : Int} (h : OnGrid m e) (hm : 0 < m) :
    ∃ digits ∈ neighbours (m * powerOfTwo e.toNat) (powerOfTwo (-e).toNat)
        (decade (m * powerOfTwo e.toNat) (powerOfTwo (-e).toNat) - (16 : Nat)),
      digits ≠ 0 ∧ (Decimal.mk digits
        (decade (m * powerOfTwo e.toNat) (powerOfTwo (-e).toNat) - (16 : Nat))).toBinary64 false =
          .finite false m e h := by
  set num := m * powerOfTwo e.toNat with hnum
  set den := powerOfTwo (-e).toNat with hden
  have hd : 0 < den := by simp [hden]
  have hv : (num : ℚ) / den = gridValue m e := gridValue_fraction m e
  obtain ⟨hleast, -⟩ := gridValue_bounds h hm
  set k : Int := decade num den - (16 : Nat) with hk
  have hfar : (10 : ℚ) ^ (-400 : Int) ≤ num / den := by
    rw [hv]
    calc (10 : ℚ) ^ (-400 : Int) ≤ (10 : ℚ) ^ (-324 : Int) := zpow_le_zpow_right₀ (by norm_num) (by norm_num)
      _ ≤ (2 : ℚ) ^ (-1074 : Int) / 2 := least_double
      _ ≤ (2 : ℚ) ^ (-1074 : Int) := half_le_self (by positivity)
      _ ≤ gridValue m e := hleast
  have hdecade : (10 : ℚ) ^ k * 10 ^ 16 ≤ gridValue m e := by
    have hb := decade_bounds hd hfar
    rw [hv] at hb
    calc (10 : ℚ) ^ k * 10 ^ 16 = (10 : ℚ) ^ (k + 16) := by
          rw [zpow_add₀ (by norm_num)]
          norm_num
      _ = (10 : ℚ) ^ decade num den := by
          congr 1
          omega
      _ ≤ gridValue m e := hb
  have hp : (0 : ℚ) < (10 : ℚ) ^ k := by positivity
  refine ⟨_, nearestEven_mem_neighbours num den k, ?_⟩
  set q := nearestEven (num * powerOfTen (-k).toNat) (den * powerOfTen k.toNat) with hq
  have hratio : ((num * powerOfTen (-k).toNat : Nat) : ℚ) / (den * powerOfTen k.toNat : Nat) =
      gridValue m e / (10 : ℚ) ^ k := by
    have hs := scale_eq 10 (by decide) k
    simp only [powerOfTen_eq, Nat.cast_mul, Nat.cast_pow] at hs ⊢
    rw [mul_div_mul_comm, hs, hv, zpow_neg, div_eq_mul_inv (gridValue m e)]
    norm_num
  have herr := @nearestEven_error (num * powerOfTen (-k).toNat) _
    (show 0 < den * powerOfTen k.toNat from Nat.mul_pos hd (by simp))
  rw [hratio, ← hq] at herr
  have hval : (Decimal.mk q k).value = q * (10 : ℚ) ^ k := rfl
  have hclose : |(Decimal.mk q k).value - gridValue m e| ≤ (10 : ℚ) ^ k / 2 := by
    have hfactor : (Decimal.mk q k).value - gridValue m e =
        (q - gridValue m e / (10 : ℚ) ^ k) * (10 : ℚ) ^ k := by
      rw [hval]
      field_simp
    rw [hfactor, abs_mul, abs_of_pos hp]
    nlinarith
  have hq0 : q ≠ 0 := by
    intro hz
    rw [hval, hz, Nat.cast_zero, zero_mul, zero_sub, abs_neg, abs_of_pos (gridValue_pos hm e)] at hclose
    nlinarith
  exact ⟨hq0, Decimal.toBinary64_near h hm hq0 (by nlinarith) false⟩

theorem exists_find? {α : Type} {p : α → Bool} {l : List α} {a : α} (ha : a ∈ l) (hp : p a = true) :
    ∃ b, l.find? p = some b ∧ p b = true := by
  cases hf : l.find? p with
  | none => exact absurd hp (List.find?_eq_none.1 hf a ha)
  | some b => exact ⟨b, rfl, List.find?_some hf⟩

/-- If some candidate is read back, the shortest digits come from one that is. -/
theorem exists_shortest {num den : Nat} {c : Decimal} (hm : c ∈ candidates num den)
    (hr : c.toBinary64 false = Binary64.round false num den) :
    ∃ d, shortest num den = dropZeros 20 d ∧ d.toBinary64 false = Binary64.round false num den := by
  obtain ⟨d, hf, hd⟩ := exists_find?
    (p := fun d => decide (d.toBinary64 false = Binary64.round false num den)) hm (decide_eq_true hr)
  refine ⟨d, ?_, of_decide_eq_true hd⟩
  have hs : shortest num den = dropZeros 20 (((candidates num den).find? fun d =>
      d.toBinary64 false = Binary64.round false num den).getD
        ⟨num * powerOfTen 1100 / den, -1100⟩) := rfl
  rw [hs, hf, Option.getD_some]

/-- The shortest digits of a double are read back as this double. -/
theorem shortest_toBinary64 {m : Nat} {e : Int} (h : OnGrid m e) (hm : 0 < m) (negative : Bool) :
    (shortest (m * powerOfTwo e.toNat) (powerOfTwo (-e).toNat)).digits ≠ 0 ∧
      (shortest (m * powerOfTwo e.toNat) (powerOfTwo (-e).toNat)).toBinary64 negative =
        .finite negative m e h := by
  have hx := Binary64.round_gridValue h hm false
  obtain ⟨digits, hmem, -, hread⟩ := exists_candidate h hm
  have hcand : Decimal.mk digits
      (decade (m * powerOfTwo e.toNat) (powerOfTwo (-e).toNat) - (16 : Nat)) ∈
        candidates (m * powerOfTwo e.toNat) (powerOfTwo (-e).toNat) :=
    List.mem_flatMap.2 ⟨16, List.mem_range.2 (by omega), List.mem_map.2 ⟨digits, hmem, rfl⟩⟩
  obtain ⟨d, hs, hd⟩ := exists_shortest hcand (hread.trans hx.symm)
  rw [hx] at hd
  have hd0 : d.digits ≠ 0 := by
    intro hz
    rw [Decimal.toBinary64, if_pos (.inl hz), Binary64.zero] at hd
    injection hd with _ hm0
    exact hm.ne hm0
  rw [hs]
  refine ⟨dropZeros_digits hd0, ?_⟩
  rw [Decimal.toBinary64_congr (dropZeros_value 20 d)]
  cases negative with
  | false => exact hd
  | true =>
    rw [Decimal.toBinary64_true, hd]
    rfl

end PipelineTemplate.Number
