import Mathlib
import PipelineTemplate.Proofs.Number.Shortest

/-!
# The order of numbers

Numbers other than NaN are compared by their rank: the exact value of a finite number, between the two
infinities. Rounding to doubles keeps the order, and a whole number that is the value of a double is
rounded to it.
-/

namespace PipelineTemplate.Number

theorem gridValue_zero (e : Int) : gridValue 0 e = 0 := by rw [gridValue, Nat.cast_zero, zero_mul]

/-! ## Rounding fractions -/

/-- The double nearest to a fraction, as a value on a grid without a greatest exponent. -/
def roundedValue (num den : Nat) : ℚ :=
  gridValue
    (nearestEven (scaleDown num den (gridExponent num den)).1 (scaleDown num den (gridExponent num den)).2)
    (gridExponent num den)

theorem nearestEven_mono {num den num' den' : Nat} (hd : 0 < den) (hd' : 0 < den')
    (h : (num : ℚ) / den ≤ num' / den') : nearestEven num den ≤ nearestEven num' den' := by
  by_contra hlt
  have hstep : (nearestEven num' den' : ℚ) + 1 ≤ nearestEven num den := by
    exact_mod_cast Nat.lt_of_not_le hlt
  have hx := abs_le.1 (@nearestEven_error num den hd)
  have hy := abs_le.1 (@nearestEven_error num' den' hd')
  -- Only a value half way between the two could be rounded both ways.
  have heq : (num : ℚ) / den = num' / den' := by linarith
  exact hlt (nearestEven_congr hd hd' heq).le

section Fraction

variable {num den : Nat} (hn : 0 < num) (hd : 0 < den)
include hn hd

/-- A value is less than the octave above its grid, and no less than its octave above the least grid. -/
theorem gridExponent_bounds : (num : ℚ) / den < (2 : ℚ) ^ (gridExponent num den + 53) ∧
    (gridExponent num den ≠ -1074 → (2 : ℚ) ^ (gridExponent num den + 52) ≤ num / den) := by
  have hr : (0 : ℚ) < num / den := div_pos (by exact_mod_cast hn) (by exact_mod_cast hd)
  have he := gridExponent_eq hn hd
  constructor
  · have h : Int.log 2 ((num : ℚ) / den) < gridExponent num den + 53 := by omega
    exact_mod_cast (Int.lt_zpow_iff_log_lt (by decide) hr).2 h
  · intro hmin
    have h : gridExponent num den + 52 ≤ Int.log 2 ((num : ℚ) / den) := by omega
    exact_mod_cast (Int.zpow_le_iff_le_log (by decide) hr).2 h

theorem mantissa_bounds {m : Nat}
    (hm : m = nearestEven (scaleDown num den (gridExponent num den)).1
      (scaleDown num den (gridExponent num den)).2) :
    m ≤ 2 ^ 53 ∧ (2 ^ 52 ≤ m ∨ gridExponent num den = -1074) := by
  obtain ⟨hu, hl⟩ := gridExponent_bounds hn hd
  set e := gridExponent num den with he
  have hp : (0 : ℚ) < (2 : ℚ) ^ e := by positivity
  have herr := abs_le.1 (@nearestEven_error (scaleDown num den e).1 _ (@scaleDown_pos num den hd e))
  rw [scaleDown_value, ← hm] at herr
  constructor
  · have hlt : (num : ℚ) / den / 2 ^ e < 2 ^ 53 := by
      rw [div_lt_iff₀ hp, ← Binary64.scale_octave e 53]
      exact hu
    have hq : (m : ℚ) < (2 ^ 53 + 1 : Nat) := by
      push_cast
      linarith
    have hnat : m < 2 ^ 53 + 1 := by exact_mod_cast hq
    omega
  · by_cases hmin : e = -1074
    · exact .inr hmin
    · have hge : (2 : ℚ) ^ 52 ≤ num / den / 2 ^ e := by
        rw [le_div_iff₀ hp, ← Binary64.scale_octave e 52]
        exact hl hmin
      have hq : ((2 ^ 52 : Nat) : ℚ) < m + 1 := by
        push_cast
        linarith
      have hnat : 2 ^ 52 < m + 1 := by exact_mod_cast hq
      exact .inl (by omega)

end Fraction

theorem roundedValue_mono {num den num' den' : Nat} (hn : 0 < num) (hd : 0 < den) (hd' : 0 < den')
    (h : (num : ℚ) / den ≤ num' / den') : roundedValue num den ≤ roundedValue num' den' := by
  have hr : (0 : ℚ) < num / den := div_pos (by exact_mod_cast hn) (by exact_mod_cast hd)
  have hn' : 0 < num' := by
    have hq : (0 : ℚ) < num' / den' := hr.trans_le h
    exact_mod_cast (div_pos_iff_of_pos_right (by exact_mod_cast hd' : (0 : ℚ) < den')).1 hq
  have hlog : Int.log 2 ((num : ℚ) / den) ≤ Int.log 2 ((num' : ℚ) / den') := Int.log_mono_right hr h
  have hle : gridExponent num den ≤ gridExponent num' den' := by
    rw [gridExponent_eq hn hd, gridExponent_eq hn' hd']
    omega
  rcases hle.eq_or_lt with heq | hlt
  · -- On one grid the nearest whole number of steps keeps the order.
    have hp : (0 : ℚ) < (2 : ℚ) ^ gridExponent num' den' := by positivity
    unfold roundedValue gridValue
    rw [heq]
    gcongr
    apply nearestEven_mono (scaleDown_pos hd _) (scaleDown_pos hd' _)
    rw [scaleDown_value, scaleDown_value]
    gcongr
  · -- A coarser grid begins where the finer one ends.
    obtain ⟨htop, -⟩ := mantissa_bounds hn hd rfl
    obtain ⟨-, hfull⟩ := mantissa_bounds hn' hd' rfl
    have hmin : gridExponent num' den' ≠ -1074 := by
      have := gridExponent_eq hn hd
      omega
    have hbottom := hfull.resolve_right hmin
    set m := nearestEven (scaleDown num den (gridExponent num den)).1
      (scaleDown num den (gridExponent num den)).2
    set m' := nearestEven (scaleDown num' den' (gridExponent num' den')).1
      (scaleDown num' den' (gridExponent num' den')).2
    have hm : (m : ℚ) ≤ 2 ^ 53 := by exact_mod_cast htop
    have hm' : (2 : ℚ) ^ 52 ≤ m' := by exact_mod_cast hbottom
    calc (m : ℚ) * 2 ^ gridExponent num den
        ≤ 2 ^ 53 * 2 ^ gridExponent num den := by gcongr
      _ = (2 : ℚ) ^ (gridExponent num den + 53) := (Binary64.scale_octave _ 53).symm
      _ ≤ (2 : ℚ) ^ (gridExponent num' den' + 52) := zpow_le_zpow_right₀ (by norm_num) (by omega)
      _ = 2 ^ 52 * 2 ^ gridExponent num' den' := Binary64.scale_octave _ 52
      _ ≤ m' * 2 ^ gridExponent num' den' := by gcongr

namespace Binary64

theorem toRat?_finite (negative : Bool) {m : Nat} {e : Int} (h : OnGrid m e) :
    (finite negative m e h).toRat? = some (if negative then -gridValue m e else gridValue m e) := by
  have hv : mkRat (m * powerOfTwo e.toNat : Nat) (powerOfTwo (-e).toNat) = gridValue m e := by
    rw [Rat.mkRat_eq_div, ← gridValue_fraction]
    push_cast
    rfl
  simp only [toRat?]
  rw [← hv]

/-- A fraction is rounded to its value on the grid, or to an infinity if that lies beyond the greatest
double. -/
theorem round_cases {num den : Nat} (hn : 0 < num) (hd : 0 < den) (negative : Bool) :
    (roundedValue num den < (2 : ℚ) ^ (1024 : Int) ∧
      (round negative num den).toRat? =
        some (if negative then -roundedValue num den else roundedValue num den)) ∨
    ((2 : ℚ) ^ (1024 : Int) ≤ roundedValue num den ∧ round negative num den = .infinite negative) := by
  obtain ⟨htop, hfull⟩ := mantissa_bounds hn hd rfl
  have he := gridExponent_eq hn hd
  unfold roundedValue
  simp only [round, if_neg hn.ne']
  set e := gridExponent num den with hedef
  generalize nearestEven (scaleDown num den e).1 (scaleDown num den e).2 = m at htop hfull ⊢
  have hmin : -1074 ≤ e := by omega
  by_cases hin : OnGrid m e
  · left
    rw [dif_pos hin, toRat?_finite]
    refine ⟨?_, rfl⟩
    rcases Nat.eq_zero_or_pos m with rfl | hm
    · rw [gridValue_zero]
      positivity
    · exact (gridValue_bounds hin hm).2
  rw [dif_neg hin]
  -- Off the grid the mantissa has reached the next octave, or the exponent is too large.
  have hover : m = 2 ^ 53 ∨ 971 < e := by
    by_contra hnot
    rw [not_or] at hnot
    exact hin ⟨by simp only [powerOfTwo_eq]; omega, hmin, by omega, by simp only [powerOfTwo_eq]; exact hfull⟩
  by_cases hnext : OnGrid (m / 2) (e + 1)
  · left
    have hm : m = 2 ^ 53 := hover.resolve_right (by have := hnext.2.2.1; omega)
    subst hm
    have hcarry : gridValue (2 ^ 53 / 2) (e + 1) = gridValue (2 ^ 53) e := by
      have hhalf : 2 ^ 53 / 2 = 2 ^ 52 := by norm_num
      have htwo : (2 : ℚ) ^ (e + 1) = 2 ^ 1 * 2 ^ e := scale_octave e 1
      rw [gridValue, gridValue, hhalf, htwo]
      push_cast
      ring
    rw [dif_pos hnext, toRat?_finite, hcarry]
    refine ⟨?_, rfl⟩
    rw [← hcarry]
    exact (gridValue_bounds hnext (by norm_num)).2
  · right
    rw [dif_neg hnext]
    refine ⟨?_, rfl⟩
    have hbig : 2 ^ 52 ≤ m := by
      rcases hover with rfl | hlarge
      · norm_num
      · exact hfull.resolve_right (by omega)
    rcases hover with rfl | hlarge
    · have htoobig : 971 ≤ e := by
        by_contra hsmall
        refine hnext ⟨?_, by omega, by omega, .inl ?_⟩ <;> simp only [powerOfTwo_eq] <;> norm_num
      rw [gridValue, Nat.cast_pow, Nat.cast_ofNat, ← scale_octave e 53]
      exact zpow_le_zpow_right₀ (by norm_num) (by omega)
    · have hq : (2 : ℚ) ^ 52 ≤ m := by exact_mod_cast hbig
      calc (2 : ℚ) ^ (1024 : Int) ≤ (2 : ℚ) ^ (e + 52) := zpow_le_zpow_right₀ (by norm_num) (by omega)
        _ = 2 ^ 52 * 2 ^ e := scale_octave e 52
        _ ≤ m * 2 ^ e := by gcongr

/-- A fraction that lies on its own grid is rounded to its value. -/
theorem roundedValue_of_grid {num den k : Nat} (hd : 0 < den)
    (h : (num : ℚ) / den = gridValue k (gridExponent num den)) : roundedValue num den = num / den := by
  have hp : (0 : ℚ) < (2 : ℚ) ^ gridExponent num den := by positivity
  have hk : (num : ℚ) / den / 2 ^ gridExponent num den = k := by
    rw [h, gridValue, mul_div_assoc, div_self hp.ne', mul_one]
  have hm : nearestEven (scaleDown num den (gridExponent num den)).1
      (scaleDown num den (gridExponent num den)).2 = k := by
    apply nearestEven_eq (scaleDown_pos hd _) <;> rw [scaleDown_value, hk] <;> norm_num
  rw [roundedValue, hm, h]

theorem rat_abs (r : ℚ) : (r.num.natAbs : ℚ) / r.den = |r| := by
  rw [← Rat.num_div_den |r|, Rat.num_abs_eq_abs_num, Rat.den_abs_eq_den, Int.abs_eq_natAbs]
  rfl

theorem toRat?_zero (negative : Bool) : (zero negative).toRat? = some 0 := by
  rw [zero, toRat?_finite, gridValue_zero, neg_zero, ite_self]

/-- The value of a double other than zero is rounded to it. -/
theorem ofRat_eq {x : Binary64} {r : ℚ} (h : x.toRat? = some r) (hr : r ≠ 0) : ofRat r = x := by
  cases x with
  | infinite negative => cases h
  | nan => cases h
  | finite negative m e hg =>
    rw [toRat?_finite, Option.some.injEq] at h
    have hm : 0 < m := by
      rw [Nat.pos_iff_ne_zero]
      rintro rfl
      rw [gridValue_zero, neg_zero, ite_self] at h
      exact hr h.symm
    have hv := gridValue_pos hm e
    have habs : |r| = gridValue m e := by
      rw [← h]
      cases negative
      · exact abs_of_pos hv
      · exact (abs_neg _).trans (abs_of_pos hv)
    have hsign : decide (r.num < 0) = negative := by
      rw [← h]
      cases negative
      · exact decide_eq_false (not_lt.2 (Rat.num_nonneg.2 hv.le))
      · exact decide_eq_true (Rat.num_neg.2 (neg_neg_of_pos hv))
    rw [ofRat, hsign, round_congr negative r.den_pos (by simp : 0 < powerOfTwo (-e).toNat)
      ((rat_abs r).trans (habs.trans (gridValue_fraction m e).symm)), round_gridValue hg hm]

theorem ofRat_toRat? {x : Binary64} {r : ℚ} (h : x.toRat? = some r) : (ofRat r).toRat? = some r := by
  rcases eq_or_ne r 0 with rfl | hr
  · exact toRat?_zero false
  · rw [ofRat_eq h hr, h]

/-! ## Whole numbers -/

theorem toInt?_eq_some {x : Binary64} {n : Int} : x.toInt? = some n ↔ x.toRat? = some (n : ℚ) := by
  rw [toInt?, Option.bind_eq_some_iff]
  constructor
  · rintro ⟨r, hr, h⟩
    split at h
    · next hden =>
      obtain rfl := Option.some.inj h
      rw [hr, Rat.coe_int_num_of_den_eq_one hden]
    · cases h
  · intro h
    exact ⟨n, h, by simp⟩

/-- The double nearest to a whole number. -/
def nearest (n : Int) : Binary64 := ofRat n

theorem nearest_eq (n : Int) : nearest n = round (decide (n < 0)) n.natAbs 1 := by
  rw [nearest, ofRat, Rat.num_intCast, Rat.den_intCast]

theorem round_isNaN (negative : Bool) (num den : Nat) : (round negative num den).isNaN = false := by
  unfold round
  split
  · rfl
  · simp only
    split
    · rfl
    · split <;> rfl

theorem nearest_isNaN (n : Int) : (nearest n).isNaN = false := by
  rw [nearest_eq]
  exact round_isNaN ..

/-- Whether a whole number is the value of a double. -/
def IsDouble (n : Int) : Prop := ∃ x : Binary64, x.toInt? = some n

theorem isDouble_iff {n : Int} : IsDouble n ↔ (nearest n).toInt? = some n := by
  refine ⟨fun ⟨x, hx⟩ => ?_, fun h => ⟨_, h⟩⟩
  rw [toInt?_eq_some] at hx ⊢
  exact ofRat_toRat? hx

end Binary64

namespace Numeric

/-- The place of a number in the order; it is of no account for NaN. -/
def rank : Numeric → WithBot (WithTop ℚ)
  | .int n => ((n : ℚ) : WithTop ℚ)
  | .float (.infinite true) => ⊥
  | .float (.infinite false) => (⊤ : WithTop ℚ)
  | .float x => ((x.toRat?.getD 0 : ℚ) : WithTop ℚ)

theorem rank_of_toRat? {a : Numeric} {r : ℚ} (h : a.toRat? = some r) : a.rank = ((r : ℚ) : WithTop ℚ) := by
  cases a with
  | int n =>
    obtain rfl := Option.some.inj h
    rfl
  | float x =>
    cases x with
    | finite negative m e hg =>
      have hx : (Binary64.finite negative m e hg).toRat? = some r := h
      simp only [rank, hx, Option.getD_some]
    | infinite negative => cases h
    | nan => cases h

@[simp] theorem rank_int (n : Int) : rank (.int n) = ((n : ℚ) : WithTop ℚ) := rfl

@[simp] theorem rank_infinite (negative : Bool) :
    rank (.float (.infinite negative)) = if negative then ⊥ else ((⊤ : WithTop ℚ) : WithBot (WithTop ℚ)) := by
  cases negative <;> rfl

@[simp] theorem toRat?_infinite (negative : Bool) : toRat? (.float (.infinite negative)) = none := rfl

/-- A number other than NaN has an exact value or is infinite. -/
theorem finite_or_infinite {a : Numeric} (h : a.isNaN = false) :
    (∃ r, a.toRat? = some r) ∨ ∃ negative, a = .float (.infinite negative) := by
  cases a with
  | int n => exact .inl ⟨n, rfl⟩
  | float x =>
    cases x with
    | finite negative m e hg => exact .inl ⟨_, Binary64.toRat?_finite negative hg⟩
    | infinite negative => exact .inr ⟨negative, rfl⟩
    | nan => cases h

section Rank

variable {a b : Numeric} (ha : a.isNaN = false) (hb : b.isNaN = false)
include ha hb

theorem eq_iff_rank : a.eq b = true ↔ a.rank = b.rank := by
  rcases finite_or_infinite ha with ⟨r, hr⟩ | ⟨p, rfl⟩ <;>
    rcases finite_or_infinite hb with ⟨s, hs⟩ | ⟨q, rfl⟩
  · simp [eq, hr, hs, rank_of_toRat? hr, rank_of_toRat? hs]
  · cases q <;> simp [eq, hr, rank_of_toRat? hr]
  · cases p <;> simp [eq, hs, rank_of_toRat? hs]
  · cases p <;> cases q <;> simp <;> decide

theorem lt_iff_rank : a.lt b = true ↔ a.rank < b.rank := by
  rcases finite_or_infinite ha with ⟨r, hr⟩ | ⟨p, rfl⟩ <;>
    rcases finite_or_infinite hb with ⟨s, hs⟩ | ⟨q, rfl⟩
  · simp [lt, hr, hs, rank_of_toRat? hr, rank_of_toRat? hs]
  · have htop : ((r : WithTop ℚ) : WithBot (WithTop ℚ)) < ⊤ := WithBot.coe_lt_coe.2 (WithTop.coe_lt_top r)
    cases q <;> simp [lt, hr, rank_of_toRat? hr, htop]
  · cases p <;> simp [lt, hs, rank_of_toRat? hs]
  · cases p <;> cases q <;> simp <;> decide

end Rank

/-- A double that stands for a whole number is equal to this number. -/
theorem normalize_eq_or (x : Binary64) :
    (∃ n : Int, x.toInt? = some n ∧ (Numeric.float x).normalize = .int n) ∨
      (x.toInt? = none ∧ (Numeric.float x).normalize = .float x) := by
  cases h : x.toInt? with
  | some n => exact .inl ⟨n, rfl, by simp only [normalize, h]⟩
  | none => exact .inr ⟨rfl, by simp only [normalize, h]⟩

theorem toRat?_normalize (a : Numeric) : a.normalize.toRat? = a.toRat? := by
  cases a with
  | int n => rfl
  | float x =>
    rcases normalize_eq_or x with ⟨n, hn, h⟩ | ⟨-, h⟩
    · rw [h]
      exact (Binary64.toInt?_eq_some.1 hn).symm
    · rw [h]

theorem isNaN_normalize (a : Numeric) : a.normalize.isNaN = a.isNaN := by
  cases a with
  | int n => rfl
  | float x =>
    rcases normalize_eq_or x with ⟨n, hn, h⟩ | ⟨-, h⟩
    · rw [h]
      cases x with
      | nan => cases hn
      | _ => rfl
    · rw [h]

/-- Normalizing keeps a number in its place. -/
theorem rank_normalize {a : Numeric} (ha : a.isNaN = false) : a.normalize.rank = a.rank := by
  rcases finite_or_infinite ha with ⟨r, hr⟩ | ⟨p, rfl⟩
  · rw [rank_of_toRat? hr, rank_of_toRat? ((toRat?_normalize a).trans hr)]
  · rfl

end Numeric

/-! ## Rounding whole numbers -/

namespace Binary64

open Numeric

/-- The place of the double that a natural number is rounded to. -/
theorem rank_round_mono {a b : Nat} (ha : 0 < a) (h : a ≤ b) :
    rank (.float (round false a 1)) ≤ rank (.float (round false b 1)) ∧
      rank (.float (round true b 1)) ≤ rank (.float (round true a 1)) := by
  have hb : 0 < b := ha.trans_le h
  have hg : roundedValue a 1 ≤ roundedValue b 1 := by
    apply roundedValue_mono ha one_pos one_pos
    gcongr
  have finite {neg : Bool} {n : Nat} {r : ℚ} (hr : (round neg n 1).toRat? = some r) :
      rank (.float (round neg n 1)) = ((r : ℚ) : WithTop ℚ) := rank_of_toRat? hr
  constructor
  · rcases round_cases hb one_pos false with ⟨hlt, hrb⟩ | ⟨-, hrb⟩
    · have hra := (round_cases ha one_pos false).resolve_right fun h => (h.1.trans hg).not_gt hlt
      rw [finite hra.2, finite hrb]
      exact_mod_cast hg
    · rw [hrb, rank_infinite]
      exact le_top
  · rcases round_cases hb one_pos true with ⟨hlt, hrb⟩ | ⟨-, hrb⟩
    · have hra := (round_cases ha one_pos true).resolve_right fun h => (h.1.trans hg).not_gt hlt
      rw [finite hra.2, finite hrb]
      exact_mod_cast neg_le_neg hg
    · rw [hrb, rank_infinite]
      exact bot_le

theorem roundedValue_nonneg (num den : Nat) : 0 ≤ roundedValue num den := by
  rw [roundedValue, gridValue]
  positivity

theorem nearest_zero : nearest 0 = zero false := by
  rw [nearest_eq]
  exact if_pos rfl

theorem rank_nearest_zero : rank (.float (nearest 0)) = 0 := by
  rw [nearest_zero]
  exact rank_of_toRat? (a := .float (zero false)) (toRat?_zero false)

theorem rank_nearest_nonneg {n : Int} (hn : 0 ≤ n) : 0 ≤ rank (.float (nearest n)) := by
  rcases hn.eq_or_lt with rfl | hpos
  · exact rank_nearest_zero.ge
  · have hs : decide (n < 0) = false := decide_eq_false (by omega)
    rw [nearest_eq, hs]
    rcases @round_cases n.natAbs 1 (by omega) one_pos false with ⟨-, hr⟩ | ⟨-, hr⟩
    · rw [rank_of_toRat? (a := .float _) hr]
      exact_mod_cast roundedValue_nonneg ..
    · rw [hr, rank_infinite]
      exact le_top

theorem rank_nearest_nonpos {n : Int} (hn : n ≤ 0) : rank (.float (nearest n)) ≤ 0 := by
  rcases hn.eq_or_lt with rfl | hneg
  · exact rank_nearest_zero.le
  · rw [nearest_eq, decide_eq_true hneg]
    rcases @round_cases n.natAbs 1 (by omega) one_pos true with ⟨-, hr⟩ | ⟨-, hr⟩
    · rw [rank_of_toRat? (a := .float _) hr]
      exact_mod_cast neg_nonpos.2 (roundedValue_nonneg ..)
    · rw [hr, rank_infinite]
      exact bot_le

/-- Rounding whole numbers keeps their order. -/
theorem rank_nearest_mono {m n : Int} (h : m ≤ n) :
    rank (.float (nearest m)) ≤ rank (.float (nearest n)) := by
  by_cases hm : 0 < m
  · have hs (k : Int) (hk : 0 < k) : decide (k < 0) = false := decide_eq_false (by omega)
    rw [nearest_eq, nearest_eq, hs m hm, hs n (by omega)]
    exact (rank_round_mono (by omega) (by omega)).1
  by_cases hn : n < 0
  · rw [nearest_eq, nearest_eq, decide_eq_true hn, decide_eq_true (show m < 0 by omega)]
    exact (rank_round_mono (by omega) (by omega)).2
  · exact (rank_nearest_nonpos (by omega)).trans (rank_nearest_nonneg (by omega))

/-- A whole number of at most 53 binary digits lies on its own grid. -/
theorem roundedValue_small {a : Nat} (ha : 0 < a) (h : a ≤ 2 ^ 53) : roundedValue a 1 = a := by
  obtain ⟨-, hlow⟩ := gridExponent_bounds ha one_pos
  have he := gridExponent_eq ha one_pos
  have hone : (a : ℚ) / (1 : Nat) = a := by simp
  have hgrid (k : Nat) (hk : (a : ℚ) = gridValue k (gridExponent a 1)) : roundedValue a 1 = a :=
    (roundedValue_of_grid one_pos (hone.trans hk)).trans hone
  rw [hone] at he hlow
  have hq : (a : ℚ) ≤ 2 ^ 53 := by exact_mod_cast h
  have hlog : Int.log 2 (a : ℚ) < 54 := by
    refine (Int.lt_zpow_iff_log_lt (by decide) (by exact_mod_cast ha)).1 ?_
    exact hq.trans_lt (by norm_num)
  by_cases hneg : gridExponent a 1 ≤ 0
  · apply hgrid (a * 2 ^ (-gridExponent a 1).toNat)
    rw [gridValue, Nat.cast_mul, Nat.cast_pow, Nat.cast_ofNat, mul_assoc, ← zpow_natCast,
      ← zpow_add₀ (by norm_num), show ((-gridExponent a 1).toNat : Int) + gridExponent a 1 = 0 by omega,
      zpow_zero, mul_one]
  · have hexp : gridExponent a 1 = 1 := by omega
    rw [hexp] at hlow
    apply hgrid (2 ^ 52)
    rw [hexp, gridValue]
    have h53 : (2 : ℚ) ^ 53 ≤ a := hlow (by decide)
    push_cast
    linarith

theorem isDouble_of_natAbs_le {n : Int} (h : n.natAbs ≤ 2 ^ 53) : IsDouble n := by
  rw [isDouble_iff, toInt?_eq_some]
  rcases eq_or_ne n 0 with rfl | hn
  · rw [nearest_zero, toRat?_zero, Int.cast_zero]
  · have ha : 0 < n.natAbs := by omega
    have hv := roundedValue_small ha h
    have hq : (n.natAbs : ℚ) ≤ 2 ^ 53 := by exact_mod_cast h
    have hlt : roundedValue n.natAbs 1 < (2 : ℚ) ^ (1024 : Int) := by
      calc roundedValue n.natAbs 1 = n.natAbs := hv
        _ ≤ (2 : ℚ) ^ (53 : Nat) := hq
        _ = (2 : ℚ) ^ (53 : Int) := (zpow_natCast 2 53).symm
        _ < (2 : ℚ) ^ (1024 : Int) := zpow_lt_zpow_right₀ (by norm_num) (by decide)
    rw [nearest_eq, ((round_cases ha one_pos _).resolve_right fun h => hlt.not_ge h.1).2, hv]
    rcases hn.lt_or_gt with hneg | hpos
    · rw [decide_eq_true hneg, if_pos rfl, Option.some.injEq]
      rw [← Int.cast_natCast, ← Int.cast_neg, Int.cast_inj]
      omega
    · rw [decide_eq_false (by omega), if_neg Bool.false_ne_true, Option.some.injEq]
      rw [← Int.cast_natCast, Int.cast_inj]
      omega

end Binary64

end PipelineTemplate.Number
