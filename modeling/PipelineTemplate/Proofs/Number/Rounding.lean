import Mathlib
import PipelineTemplate.Number.Binary64

/-!
# Rounding to doubles

Rounding a fraction depends on its value only, and every value that is nearer to a double than half of
the gap to the next one is rounded to that double.
-/

namespace PipelineTemplate.Number

@[simp] theorem powerOfTwo_eq (n : Nat) : powerOfTwo n = 2 ^ n := rfl

@[simp] theorem powerOfTen_eq (n : Nat) : powerOfTen n = 10 ^ n := rfl

theorem scale_eq (b : Nat) (hb : 0 < b) (k : Int) :
    (b : ℚ) ^ (-k).toNat / (b : ℚ) ^ k.toNat = (b : ℚ) ^ (-k) := by
  have hne : (b : ℚ) ≠ 0 := by exact_mod_cast hb.ne'
  rw [← zpow_natCast, ← zpow_natCast, ← zpow_sub₀ hne]
  congr 1
  omega

/-- The value of a fraction that was scaled down. -/
theorem scaleDown_value (num den : Nat) (e : Int) :
    ((scaleDown num den e).1 : ℚ) / (scaleDown num den e).2 = num / den / (2 : ℚ) ^ e := by
  have hs := scale_eq 2 (by decide) e
  simp only [scaleDown, powerOfTwo_eq, Nat.cast_mul, Nat.cast_pow, Nat.cast_ofNat] at hs ⊢
  rw [mul_div_mul_comm, hs, zpow_neg, div_eq_mul_inv ((num : ℚ) / den)]

theorem scaleDown_pos {num den : Nat} (hd : 0 < den) (e : Int) : 0 < (scaleDown num den e).2 := by
  simp only [scaleDown, powerOfTwo_eq]
  positivity

/-! ## The nearest whole number -/

theorem nearestEven_scaled (k num den : Nat) (hk : 0 < k) :
    nearestEven (k * num) (k * den) = nearestEven num den := by
  have hm : (2 * (k * (num % den)) < k * den) = (2 * (num % den) < den) := by
    rw [Nat.mul_left_comm, Nat.mul_lt_mul_left hk]
  have hl : (k * den < 2 * (k * (num % den))) = (den < 2 * (num % den)) := by
    rw [Nat.mul_left_comm, Nat.mul_lt_mul_left hk]
  simp only [nearestEven, Nat.mul_div_mul_left _ _ hk, Nat.mul_mod_mul_left, hm, hl]

/-- The nearest whole number depends on the value of a fraction only. -/
theorem nearestEven_congr {num den num' den' : Nat} (hd : 0 < den) (hd' : 0 < den')
    (h : (num : ℚ) / den = num' / den') : nearestEven num den = nearestEven num' den' := by
  have hcross : num * den' = num' * den := by
    have hq : (den : ℚ) ≠ 0 := by exact_mod_cast hd.ne'
    have hq' : (den' : ℚ) ≠ 0 := by exact_mod_cast hd'.ne'
    rw [div_eq_div_iff hq hq'] at h
    exact_mod_cast h
  rw [← nearestEven_scaled den' num den hd', ← nearestEven_scaled den num' den' hd,
    Nat.mul_comm den' num, hcross, Nat.mul_comm num' den, Nat.mul_comm den' den]

/-- The whole number within half of one of a fraction is the nearest one. -/
theorem nearestEven_eq {num den m : Nat} (hd : 0 < den)
    (hl : (m : ℚ) - 1 / 2 < num / den) (hu : (num : ℚ) / den < m + 1 / 2) : nearestEven num den = m := by
  have hq : (0 : ℚ) < den := by exact_mod_cast hd
  have hlow : 2 * m * den < 2 * num + den := by
    rw [lt_div_iff₀ hq] at hl
    have : (2 * m * den : ℚ) < 2 * num + den := by linarith
    exact_mod_cast this
  have hup : 2 * num < 2 * m * den + den := by
    rw [div_lt_iff₀ hq] at hu
    have : (2 * num : ℚ) < 2 * m * den + den := by linarith
    exact_mod_cast this
  have hsplit := Nat.div_add_mod num den
  have hrem := Nat.mod_lt num hd
  unfold nearestEven
  generalize num / den = q at hsplit ⊢
  generalize num % den = r at hsplit hrem ⊢
  subst hsplit
  -- The quotient is this number, with a small remainder, or one less, with a large one.
  have hqm : q ≤ m := by
    by_contra hlt
    have hle : m + 1 ≤ q := by omega
    have := Nat.mul_le_mul_left den hle
    rw [Nat.mul_add] at this
    nlinarith
  have hmq : m ≤ q + 1 := by
    by_contra hlt
    have hle : q + 2 ≤ m := by omega
    have := Nat.mul_le_mul_left den hle
    rw [Nat.mul_add] at this
    nlinarith
  rcases Nat.eq_or_lt_of_le hqm with rfl | hlt
  · rw [if_pos (by nlinarith)]
  · obtain rfl : m = q + 1 := by omega
    rw [if_neg (by nlinarith), if_pos (by nlinarith)]

/-! ## The grid -/

theorem log2_bounds {n : Nat} (hn : 0 < n) :
    ((2 : ℕ) : ℚ) ^ (n.log2 : ℤ) ≤ n ∧ (n : ℚ) < ((2 : ℕ) : ℚ) ^ ((n.log2 : ℤ) + 1) := by
  constructor
  · rw [zpow_natCast]
    exact_mod_cast Nat.log2_self_le hn.ne'
  · have hc : (n : ℚ) < ((2 : ℕ) : ℚ) ^ (n.log2 + 1) := by exact_mod_cast @Nat.lt_log2_self n
    exact_mod_cast hc

/-- The lengths of a numerator and of a denominator tell the octave of the fraction, or the one after it. -/
theorem octave_bounds {num den : Nat} (hn : 0 < num) (hd : 0 < den) :
    ((2 : ℕ) : ℚ) ^ ((num.log2 : ℤ) - den.log2 - 1) ≤ num / den ∧
      (num : ℚ) / den < ((2 : ℕ) : ℚ) ^ ((num.log2 : ℤ) - den.log2 + 1) := by
  have hqd : (0 : ℚ) < den := by exact_mod_cast hd
  have htwo : ((2 : ℕ) : ℚ) ≠ 0 := by norm_num
  obtain ⟨hnl, hnu⟩ := log2_bounds hn
  obtain ⟨hdl, hdu⟩ := log2_bounds hd
  constructor
  · rw [le_div_iff₀ hqd]
    calc ((2 : ℕ) : ℚ) ^ ((num.log2 : ℤ) - den.log2 - 1) * den
        ≤ ((2 : ℕ) : ℚ) ^ ((num.log2 : ℤ) - den.log2 - 1) * ((2 : ℕ) : ℚ) ^ ((den.log2 : ℤ) + 1) := by gcongr
      _ = ((2 : ℕ) : ℚ) ^ (num.log2 : ℤ) := by rw [← zpow_add₀ htwo]; congr 1; omega
      _ ≤ num := hnl
  · rw [div_lt_iff₀ hqd]
    calc (num : ℚ) < ((2 : ℕ) : ℚ) ^ ((num.log2 : ℤ) + 1) := hnu
      _ = ((2 : ℕ) : ℚ) ^ ((num.log2 : ℤ) - den.log2 + 1) * ((2 : ℕ) : ℚ) ^ (den.log2 : ℤ) := by
          rw [← zpow_add₀ htwo]; congr 1; omega
      _ ≤ ((2 : ℕ) : ℚ) ^ ((num.log2 : ℤ) - den.log2 + 1) * den := by gcongr

theorem scaleDown_le_iff {num den : Nat} (hd : 0 < den) (e : Int) :
    ((scaleDown num den e).2 ≤ (scaleDown num den e).1) ↔ ((2 : ℕ) : ℚ) ^ e ≤ num / den := by
  have hp : (0 : ℚ) < (scaleDown num den e).2 := by exact_mod_cast scaleDown_pos hd e
  have hz : (0 : ℚ) < (2 : ℚ) ^ e := by positivity
  rw [← Nat.cast_le (α := ℚ), ← one_le_div hp, scaleDown_value num den e, one_le_div hz]
  norm_num

/-- The exponent of the grid is that of the octave of the value. -/
theorem gridExponent_eq {num den : Nat} (hn : 0 < num) (hd : 0 < den) :
    gridExponent num den = max (-1074) (Int.log 2 ((num : ℚ) / den) - 52) := by
  have hr : (0 : ℚ) < num / den := div_pos (by exact_mod_cast hn) (by exact_mod_cast hd)
  obtain ⟨hlow, hup⟩ := octave_bounds hn hd
  set octave : Int := num.log2 - den.log2 with hoct
  have hlogu : Int.log 2 ((num : ℚ) / den) < octave + 1 :=
    (Int.lt_zpow_iff_log_lt (by decide) hr).1 hup
  have hlogl : octave - 1 ≤ Int.log 2 ((num : ℚ) / den) :=
    (Int.zpow_le_iff_le_log (by decide) hr).1 hlow
  have hlog : ((scaleDown num den octave).2 ≤ (scaleDown num den octave).1) ↔
      octave ≤ Int.log 2 ((num : ℚ) / den) :=
    (scaleDown_le_iff hd octave).trans (Int.zpow_le_iff_le_log (by decide) hr)
  unfold gridExponent
  simp only [← hoct]
  split
  · next h =>
    have := hlog.1 h
    congr 1
    omega
  · next h =>
    have hnot : ¬ octave ≤ Int.log 2 ((num : ℚ) / den) := fun hle => h (hlog.2 hle)
    congr 1
    omega

namespace Binary64

/-- Rounding depends on the value of a fraction only. -/
theorem round_congr {num den num' den' : Nat} (negative : Bool) (hd : 0 < den) (hd' : 0 < den')
    (h : (num : ℚ) / den = num' / den') : round negative num den = round negative num' den' := by
  have hq : (den : ℚ) ≠ 0 := by exact_mod_cast hd.ne'
  have hq' : (den' : ℚ) ≠ 0 := by exact_mod_cast hd'.ne'
  have hz : num = 0 ↔ num' = 0 := by
    have hv : (num : ℚ) / den = 0 ↔ (num' : ℚ) / den' = 0 := by rw [h]
    rw [div_eq_zero_iff, div_eq_zero_iff] at hv
    simpa [hq, hq'] using hv
  by_cases hn : num = 0
  · rw [round, round, if_pos hn, if_pos (hz.1 hn)]
  · have hn' : num' ≠ 0 := fun h' => hn (hz.2 h')
    have he : gridExponent num den = gridExponent num' den' := by
      rw [gridExponent_eq (Nat.pos_of_ne_zero hn) hd, gridExponent_eq (Nat.pos_of_ne_zero hn') hd', h]
    have hm : nearestEven (scaleDown num den (gridExponent num' den')).1
        (scaleDown num den (gridExponent num' den')).2 =
        nearestEven (scaleDown num' den' (gridExponent num' den')).1
          (scaleDown num' den' (gridExponent num' den')).2 := by
      apply nearestEven_congr (scaleDown_pos hd _) (scaleDown_pos hd' _)
      rw [scaleDown_value, scaleDown_value, h]
    simp only [round, if_neg hn, if_neg hn', he, hm]

theorem octave_eq {r : ℚ} {k : Int} (hl : (2 : ℚ) ^ k ≤ r) (hu : r < (2 : ℚ) ^ (k + 1)) :
    Int.log 2 r = k := by
  have hr : 0 < r := lt_of_lt_of_le (by positivity) hl
  have h1 : k ≤ Int.log 2 r := (Int.zpow_le_iff_le_log (by decide) hr).1 (by exact_mod_cast hl)
  have h2 : Int.log 2 r < k + 1 := (Int.lt_zpow_iff_log_lt (by decide) hr).1 (by exact_mod_cast hu)
  omega

theorem round_eq {num den : Nat} {m : Nat} {e : Int} (h : OnGrid m e) (negative : Bool) (hn : 0 < num)
    (he : gridExponent num den = e)
    (hm : nearestEven (scaleDown num den e).1 (scaleDown num den e).2 = m) :
    round negative num den = .finite negative m e h := by
  subst he hm
  simp only [round, if_neg hn.ne', dif_pos h]

/-- A value just below an octave may be rounded to the first double of that octave. -/
theorem round_eq_carried {num den : Nat} {e : Int} (h : OnGrid (2 ^ 52) e) (negative : Bool)
    (hn : 0 < num) (he : gridExponent num den = e - 1)
    (hm : nearestEven (scaleDown num den (e - 1)).1 (scaleDown num den (e - 1)).2 = 2 ^ 53) :
    round negative num den = .finite negative (2 ^ 52) e h := by
  have hoff : ¬ OnGrid (2 ^ 53) (e - 1) := fun ho => absurd ho.1 (by simp)
  have hhalf : 2 ^ 53 / 2 = 2 ^ 52 := by norm_num
  have hone : e - 1 + 1 = e := by omega
  simp only [round, if_neg hn.ne', he, hm, dif_neg hoff, hhalf, hone, dif_pos h]

theorem scale_octave (e : Int) (k : Nat) : (2 : ℚ) ^ (e + k) = 2 ^ k * (2 : ℚ) ^ e := by
  rw [zpow_add₀ (by norm_num), mul_comm, zpow_natCast]

section Near

variable {num den m : Nat} {e : Int} (hn : 0 < num) (hd : 0 < den) (negative : Bool)
include hn hd

theorem gridExponent_octave {k : Int} (hl : (2 : ℚ) ^ k ≤ num / den) (hu : (num : ℚ) / den < (2 : ℚ) ^ (k + 1)) :
    gridExponent num den = max (-1074) (k - 52) := by
  rw [gridExponent_eq hn hd, octave_eq hl hu]

/-- A value on the grid of a double that is nearer to it than half of the gap is rounded to it. -/
theorem round_within (h : OnGrid m e) (he : gridExponent num den = e)
    (hl : ((m : ℚ) - 1 / 2) * (2 : ℚ) ^ e < num / den) (hu : (num : ℚ) / den < ((m : ℚ) + 1 / 2) * (2 : ℚ) ^ e) :
    round negative num den = .finite negative m e h := by
  have hp : (0 : ℚ) < (2 : ℚ) ^ e := by positivity
  apply round_eq h negative hn he
  apply nearestEven_eq (scaleDown_pos hd e)
  · rw [scaleDown_value, lt_div_iff₀ hp]
    exact hl
  · rw [scaleDown_value, div_lt_iff₀ hp]
    exact hu

/-- A value just below an octave is rounded to the first double of that octave. -/
theorem round_below (h : OnGrid (2 ^ 52) e) (hmin : e ≠ -1074)
    (hnear : ((2 : ℚ) ^ 52 - 1 / 4) * (2 : ℚ) ^ e < num / den) (hlow : (num : ℚ) / den < (2 : ℚ) ^ (e + 52)) :
    round negative num den = .finite negative (2 ^ 52) e h := by
  have hp : (0 : ℚ) < (2 : ℚ) ^ (e - 1) := by positivity
  have hpred : (2 : ℚ) ^ e = 2 * (2 : ℚ) ^ (e - 1) := by
    rw [zpow_sub₀ (by norm_num)]
    field_simp
  have h51 : (2 : ℚ) ^ (e + 51) = 2 ^ 51 * (2 : ℚ) ^ e := scale_octave e 51
  have h52 : (2 : ℚ) ^ (e + 52) = 2 ^ 52 * (2 : ℚ) ^ e := scale_octave e 52
  have he : gridExponent num den = e - 1 := by
    have hnext : e + 51 + 1 = e + 52 := by omega
    have := h.2.1
    rw [gridExponent_octave hn hd (k := e + 51) (by rw [h51]; nlinarith) (by rwa [hnext])]
    omega
  apply round_eq_carried h negative hn he
  apply nearestEven_eq (scaleDown_pos hd (e - 1))
  · rw [scaleDown_value, lt_div_iff₀ hp]
    rw [hpred] at hnear
    push_cast
    linarith
  · rw [scaleDown_value, div_lt_iff₀ hp]
    rw [h52, hpred] at hlow
    push_cast
    linarith

end Near

/-- A value nearer to a double than half of the gap to the next one is rounded to it; below the first
double of an octave the gap is only half as wide. -/
theorem round_near {num den m : Nat} {e : Int} (h : OnGrid m e) (hm : 0 < m) (hd : 0 < den)
    (negative : Bool) (hl : ((m : ℚ) - 1 / 2) * (2 : ℚ) ^ e < num / den)
    (hu : (num : ℚ) / den < ((m : ℚ) + 1 / 2) * (2 : ℚ) ^ e)
    (hf : m = 2 ^ 52 → ((m : ℚ) - 1 / 4) * (2 : ℚ) ^ e < num / den) :
    round negative num den = .finite negative m e h := by
  have hp : (0 : ℚ) < (2 : ℚ) ^ e := by positivity
  have hr : (0 : ℚ) < num / den := by
    have hm1 : (1 : ℚ) ≤ m := by exact_mod_cast hm
    nlinarith
  have hn : 0 < num := by
    have hqd : (0 : ℚ) < den := by exact_mod_cast hd
    exact_mod_cast (div_pos_iff_of_pos_right hqd).1 hr
  have h52 : (2 : ℚ) ^ (e + 52) = 2 ^ 52 * (2 : ℚ) ^ e := scale_octave e 52
  have htop : (num : ℚ) / den < (2 : ℚ) ^ (e + 53) := by
    have hm53 : (m : ℚ) + 1 ≤ 2 ^ 53 := by exact_mod_cast h.1
    have h53 : (2 : ℚ) ^ (e + 53) = 2 ^ 53 * (2 : ℚ) ^ e := scale_octave e 53
    rw [h53]
    nlinarith
  by_cases hlow : (2 : ℚ) ^ (e + 52) ≤ num / den
  · have hnext : e + 52 + 1 = e + 53 := by omega
    have hgrid := gridExponent_octave hn hd hlow (by rwa [hnext])
    have := h.2.1
    exact round_within hn hd negative h (by omega) hl hu
  by_cases hmin : e = -1074
  · have hlog : Int.log 2 ((num : ℚ) / den) < e + 53 :=
      (Int.lt_zpow_iff_log_lt (by decide) hr).1 (by exact_mod_cast htop)
    have hgrid := gridExponent_eq hn hd
    exact round_within hn hd negative h (by omega) hl hu
  -- The value lies just below the octave of the double, which is the first one there.
  rw [not_le] at hlow
  obtain rfl : m = 2 ^ 52 := by
    have hfull : 2 ^ 52 ≤ m := h.2.2.2.resolve_right hmin
    by_contra hne
    have hgt : (2 : ℚ) ^ 52 + 1 ≤ m := by
      have : 2 ^ 52 + 1 ≤ m := by omega
      exact_mod_cast this
    rw [h52] at hlow
    nlinarith
  have hnear := hf rfl
  push_cast at hnear
  exact round_below hn hd negative h hmin hnear hlow

end Binary64

end PipelineTemplate.Number
