import Mathlib
import PipelineTemplate.Proofs.Number.Order

/-!
# Where arithmetic has no value

A magnitude that lies no nearer to the greatest double than to the power of two above it is rounded to an
infinity. An operation on numbers has no value where an integer of such a magnitude meets a double, where
the quotient of two integers is of such a magnitude, and where an infinity is divided with a remainder.
-/

namespace PipelineTemplate.Number

/-- The least magnitude that is rounded to an infinity. -/
def overflow : ℚ := 2 ^ 1024 - 2 ^ 970

theorem overflow_eq : overflow = (2 ^ 53 - 1 / 2) * (2 : ℚ) ^ (971 : Int) := by
  have htop : (2 : ℚ) ^ 1024 = 2 ^ 54 * 2 ^ 970 := by rw [← pow_add]
  have hlast : (2 : ℚ) ^ (971 : Int) = 2 * 2 ^ 970 := by
    rw [← pow_succ']
    exact zpow_natCast 2 971
  rw [overflow, htop, hlast]
  generalize (2 : ℚ) ^ 970 = unit
  ring

theorem overflow_lt : overflow < (2 : ℚ) ^ (1024 : Int) := by
  have hp : (0 : ℚ) < 2 ^ (971 : Int) := by positivity
  have htop : (2 : ℚ) ^ (1024 : Int) = 2 ^ 53 * 2 ^ (971 : Int) := Binary64.scale_octave 971 53
  rw [overflow_eq, htop]
  generalize (2 : ℚ) ^ (971 : Int) = unit at hp ⊢
  linarith

theorem overflow_natCast : ((2 ^ 1024 - 2 ^ 970 : Nat) : ℚ) = overflow := by
  have hle : 970 ≤ 1024 := by decide
  rw [Nat.cast_sub (pow_le_pow_right₀ one_le_two hle), Nat.cast_pow, Nat.cast_pow, Nat.cast_ofNat, overflow]

theorem one_lt_overflow : 1 < overflow := by
  have h : 1 < 2 ^ 1024 - 2 ^ 970 := by decide +kernel
  rw [← overflow_natCast]
  exact_mod_cast h

theorem overflow_pos : 0 < overflow := one_pos.trans one_lt_overflow

/-- Half way between the greatest double and the power of two above it, the latter is the even one. -/
theorem roundedValue_overflow : roundedValue (2 ^ 1024 - 2 ^ 970) 1 = (2 : ℚ) ^ (1024 : Int) := by
  have he : gridExponent (2 ^ 1024 - 2 ^ 970) 1 = 971 := by decide +kernel
  have hm : nearestEven (scaleDown (2 ^ 1024 - 2 ^ 970) 1 971).1 (scaleDown (2 ^ 1024 - 2 ^ 970) 1 971).2 =
      2 ^ 53 := by decide +kernel
  have htop : (2 : ℚ) ^ (1024 : Int) = 2 ^ 53 * 2 ^ (971 : Int) := Binary64.scale_octave 971 53
  rw [roundedValue, he, hm, gridValue, Nat.cast_pow, Nat.cast_ofNat, htop]

section Fraction

variable {num den : Nat} (hn : 0 < num) (hd : 0 < den)
include hn hd

theorem roundedValue_lt (h : (num : ℚ) / den < overflow) : roundedValue num den < (2 : ℚ) ^ (1024 : Int) := by
  have hr : (0 : ℚ) < num / den := div_pos (by exact_mod_cast hn) (by exact_mod_cast hd)
  obtain ⟨htop, -⟩ := mantissa_bounds hn hd rfl
  have hexp := gridExponent_eq hn hd
  have herr := abs_le.1 (@nearestEven_error (scaleDown num den (gridExponent num den)).1 _
    (@scaleDown_pos num den hd (gridExponent num den)))
  rw [scaleDown_value] at herr
  unfold roundedValue
  generalize nearestEven (scaleDown num den (gridExponent num den)).1
    (scaleDown num den (gridExponent num den)).2 = m at htop herr ⊢
  have hlog : Int.log 2 ((num : ℚ) / den) < 1024 := by
    have hlt : (num : ℚ) / den < (2 : ℚ) ^ (1024 : Int) := h.trans overflow_lt
    exact (Int.lt_zpow_iff_log_lt (by decide) hr).1 (by exact_mod_cast hlt)
  by_cases hsmall : gridExponent num den ≤ 970
  · have hm : (m : ℚ) ≤ 2 ^ 53 := by exact_mod_cast htop
    calc (m : ℚ) * 2 ^ gridExponent num den ≤ 2 ^ 53 * 2 ^ gridExponent num den := by gcongr
      _ = 2 ^ (gridExponent num den + 53) := (Binary64.scale_octave _ 53).symm
      _ < 2 ^ (1024 : Int) := zpow_lt_zpow_right₀ (by norm_num) (by omega)
  · -- On the last grid the nearest multiple stays below the power of two.
    have hlast : gridExponent num den = 971 := by omega
    rw [hlast] at herr ⊢
    have hscaled : (num : ℚ) / den / 2 ^ (971 : Int) < 2 ^ 53 - 1 / 2 := by
      rw [div_lt_iff₀ (by positivity)]
      exact h.trans_eq overflow_eq
    have hlt : (m : ℚ) < (2 ^ 53 : Nat) := by
      push_cast
      linarith
    have hm : (m : ℚ) + 1 ≤ 2 ^ 53 := by exact_mod_cast hlt
    calc (m : ℚ) * 2 ^ (971 : Int) < (m + 1) * 2 ^ (971 : Int) := by gcongr; linarith
      _ ≤ 2 ^ 53 * 2 ^ (971 : Int) := by gcongr
      _ = 2 ^ (1024 : Int) := (Binary64.scale_octave 971 53).symm

theorem roundedValue_lt_iff : roundedValue num den < (2 : ℚ) ^ (1024 : Int) ↔ (num : ℚ) / den < overflow := by
  refine ⟨fun h => ?_, roundedValue_lt hn hd⟩
  by_contra hge
  have hle : ((2 ^ 1024 - 2 ^ 970 : Nat) : ℚ) / (1 : Nat) ≤ num / den := by
    rw [overflow_natCast, Nat.cast_one, div_one]
    exact not_lt.1 hge
  have hpos : 0 < 2 ^ 1024 - 2 ^ 970 := by
    have hq : (0 : ℚ) < (2 ^ 1024 - 2 ^ 970 : Nat) := by
      rw [overflow_natCast]
      exact overflow_pos
    exact_mod_cast hq
  have hmono := roundedValue_mono hpos one_pos hd hle
  rw [roundedValue_overflow] at hmono
  exact hmono.not_gt h

end Fraction

namespace Binary64

theorem isFinite_round {num den : Nat} (hd : 0 < den) (negative : Bool) :
    (round negative num den).isFinite = true ↔ (num : ℚ) / den < overflow := by
  rcases Nat.eq_zero_or_pos num with rfl | hn
  · have hzero : ((0 : Nat) : ℚ) / den < overflow := by
      rw [Nat.cast_zero, zero_div]
      exact overflow_pos
    refine iff_of_true ?_ hzero
    rw [round, if_pos rfl, isFinite, toRat?_zero]
    rfl
  · rw [← roundedValue_lt_iff hn hd]
    rcases round_cases hn hd negative with ⟨hlt, hr⟩ | ⟨hge, hr⟩
    · exact iff_of_true (by rw [isFinite, hr]; rfl) hlt
    · rw [hr]
      exact iff_of_false Bool.false_ne_true hge.not_gt

/-- An exact value is rounded to an infinity exactly from the overflow on. -/
theorem isFinite_ofRat (r : ℚ) : (ofRat r).isFinite = true ↔ |r| < overflow := by
  rw [ofRat, isFinite_round r.den_pos, rat_abs]

theorem isFinite_ofExact (r : ℚ) (negativeZero : Bool) :
    (ofExact r negativeZero).isFinite = true ↔ |r| < overflow := by
  unfold ofExact
  split
  · next h =>
    subst h
    refine iff_of_true ?_ (by rw [abs_zero]; exact overflow_pos)
    rw [isFinite, toRat?_zero]
    rfl
  · exact isFinite_ofRat r

theorem ofInt?_eq_none {n : Int} : ofInt? n = none ↔ overflow ≤ |(n : ℚ)| := by
  rw [← not_lt, ← isFinite_ofRat, ofInt?]
  simp only [ite_eq_right_iff, reduceCtorEq, imp_false]

theorem isZero_iff {x : Binary64} : x.isZero = true ↔ x.toRat? = some 0 := decide_eq_true_iff

/-- Only zero is rounded to zero. -/
theorem isZero_nearest (n : Int) : (nearest n).isZero = (n == 0) := by
  rcases eq_or_ne n 0 with rfl | hn
  · rw [nearest_zero]
    exact isZero_iff.2 (toRat?_zero false)
  · have ha : 0 < n.natAbs := by omega
    have hone : (1 : ℚ) ≤ roundedValue n.natAbs 1 := by
      have hle : ((1 : Nat) : ℚ) / (1 : Nat) ≤ (n.natAbs : ℚ) / (1 : Nat) := by gcongr; omega
      have hmono := roundedValue_mono one_pos one_pos one_pos hle
      rwa [roundedValue_small one_pos (by norm_num), Nat.cast_one] at hmono
    have hbeq : (n == 0) = false := beq_eq_false_iff_ne.2 hn
    rw [nearest_eq, hbeq, Bool.eq_false_iff, ne_eq, isZero_iff]
    rcases round_cases ha one_pos (decide (n < 0)) with ⟨-, hr⟩ | ⟨-, hr⟩
    · rw [hr, Option.some.injEq]
      split <;> intro h <;> linarith
    · rw [hr]
      exact fun h => nomatch h

/-- A remainder of doubles other than NaN is missing for an infinite dividend and for the divisor zero. -/
theorem rem?_eq_none {x y : Binary64} (hx : x.isNaN = false) (hy : y.isNaN = false) :
    x.rem? y = none ↔ y.isZero = true ∨ ∃ negative, x = .infinite negative := by
  unfold rem?
  rw [hx, hy]
  cases x with
  | nan => cases hx
  | infinite negative => exact iff_of_true rfl (.inr ⟨negative, rfl⟩)
  | finite negative m e hg =>
    rw [isZero_iff, toRat?_finite]
    cases y.toRat? with
    | none => simp
    | some s => by_cases hs : s = 0 <;> simp [hs]

end Binary64

namespace Numeric

/-- An integer beyond the doubles. -/
def Huge (a : Numeric) : Prop := ∃ n, a = .int n ∧ overflow ≤ |(n : ℚ)|

/-- Whether one of two numbers is a double. -/
def Mixed (a b : Numeric) : Prop := ∃ x, a = .float x ∨ b = .float x

theorem not_huge_one : ¬ (int 1).Huge := by
  rintro ⟨n, hn, hlarge⟩
  cases hn
  rw [Int.cast_one, abs_one] at hlarge
  exact one_lt_overflow.not_ge hlarge

theorem toBinary64?_eq_none {a : Numeric} : a.toBinary64? = none ↔ a.Huge := by
  cases a with
  | int n =>
    rw [toBinary64?, Binary64.ofInt?_eq_none]
    constructor
    · exact fun h => ⟨n, rfl, h⟩
    · rintro ⟨_, he, h⟩
      cases he
      exact h
  | float x =>
    refine iff_of_false (by simp [toBinary64?]) ?_
    rintro ⟨_, he, -⟩
    cases he

/-- The double that an operand becomes, unless it is huge: it is NaN, zero or infinite only if the operand
is. -/
theorem exists_toBinary64 {a : Numeric} (h : ¬ a.Huge) (hn : a.isNaN = false) :
    ∃ x, a.toBinary64? = some x ∧ x.isNaN = false ∧ x.isZero = a.isZero ∧
      ((∃ negative, x = .infinite negative) ↔ ∃ negative, a = .float (.infinite negative)) := by
  obtain ⟨x, hx⟩ := Option.ne_none_iff_exists'.1 (mt toBinary64?_eq_none.1 h)
  refine ⟨x, hx, ?_⟩
  cases a with
  | float y =>
    cases hx
    exact ⟨hn, rfl, by simp⟩
  | int n =>
    have hx : Binary64.ofInt? n = some x := hx
    unfold Binary64.ofInt? at hx
    simp only at hx
    split at hx
    · next hfinite =>
      obtain rfl := Option.some.inj hx
      refine ⟨Binary64.nearest_isNaN n, Binary64.isZero_nearest n, iff_of_false ?_ (by simp)⟩
      rintro ⟨negative, hinf⟩
      rw [hinf] at hfinite
      cases hfinite
    · cases hx

/-- Whether something has no value. -/
def Fails {α : Type} (e : Except Undefined α) : Prop := ∃ cause, e = .error cause

theorem not_fails_ok {α : Type} {a : α} : ¬ Fails (.ok a) := by
  rintro ⟨_, h⟩
  cases h

theorem fails_map {α β : Type} {f : α → β} {e : Except Undefined α} : Fails (e.map f) ↔ Fails e := by
  cases e <;> simp [Fails, Except.map]

/-- An operation on the doubles that two numbers become. -/
def onDoubles (f : Binary64 → Binary64 → Except Undefined Numeric) (a b : Numeric) : Except Undefined Numeric :=
  match a.toBinary64?, b.toBinary64? with
  | some x, some y => f x y
  | _, _ => .error .tooLarge

theorem onDoubles_fails {f : Binary64 → Binary64 → Except Undefined Numeric} {a b : Numeric} :
    Fails (onDoubles f a b) ↔ (a.Huge ∨ b.Huge) ∨
      ∃ x y, a.toBinary64? = some x ∧ b.toBinary64? = some y ∧ Fails (f x y) := by
  rw [← toBinary64?_eq_none, ← toBinary64?_eq_none, onDoubles]
  cases a.toBinary64? <;> cases b.toBinary64? <;> simp [Fails]

theorem onDoubles_ok_fails {f : Binary64 → Binary64 → Numeric} {a b : Numeric} :
    Fails (onDoubles (fun x y => .ok (f x y)) a b) ↔ a.Huge ∨ b.Huge := by
  refine onDoubles_fails.trans (or_iff_left ?_)
  rintro ⟨x, y, -, -, h⟩
  exact not_fails_ok h

section Fails

variable {a b : Numeric}

theorem mixed_or_ints (a b : Numeric) : Mixed a b ∨ ∃ m n, a = .int m ∧ b = .int n := by
  cases a with
  | float x => exact .inl ⟨x, .inl rfl⟩
  | int m =>
    cases b with
    | float y => exact .inl ⟨y, .inr rfl⟩
    | int n => exact .inr ⟨m, n, rfl, rfl⟩

theorem not_mixed_ints (m n : Int) : ¬ Mixed (.int m) (.int n) := by
  rintro ⟨x, hx | hx⟩ <;> cases hx

theorem combine_fails {onInt : Int → Int → Int} {onFloat : Binary64 → Binary64 → Binary64} :
    Fails (combine onInt onFloat a b) ↔ Mixed a b ∧ (a.Huge ∨ b.Huge) := by
  obtain h | ⟨m, n, rfl, rfl⟩ := mixed_or_ints a b
  · have hcombine : combine onInt onFloat a b = onDoubles (fun x y => .ok (.float (onFloat x y))) a b := by
      obtain ⟨x, rfl | rfl⟩ := h
      · rfl
      · cases a <;> rfl
    rw [hcombine, and_iff_right h]
    exact onDoubles_ok_fails
  · exact iff_of_false not_fails_ok fun h => not_mixed_ints m n h.1

theorem div_fails : Fails (a.div b) ↔
    (Mixed a b ∧ (a.Huge ∨ b.Huge)) ∨ ∃ m n, a = .int m ∧ b = .int n ∧ overflow ≤ |(m / n : ℚ)| := by
  obtain h | ⟨m, n, rfl, rfl⟩ := mixed_or_ints a b
  · have hdiv : a.div b = onDoubles (fun x y => .ok (.float (x.div y))) a b := by
      obtain ⟨x, rfl | rfl⟩ := h
      · rfl
      · cases a <;> rfl
    have hint : ¬ ∃ m n, a = .int m ∧ b = .int n ∧ overflow ≤ |(m / n : ℚ)| := by
      rintro ⟨m, n, rfl, rfl, -⟩
      exact not_mixed_ints m n h
    rw [or_iff_left hint, hdiv, and_iff_right h]
    exact onDoubles_ok_fails
  · have hfinite := Binary64.isFinite_ofExact (m / n : ℚ) (decide (n < 0))
    rw [← not_iff_not, not_lt] at hfinite
    rw [or_iff_right fun h => not_mixed_ints m n h.1]
    have hquotient : Fails ((int m).div (int n)) ↔ overflow ≤ |(m / n : ℚ)| := by
      rw [← hfinite]
      unfold div
      simp only
      split
      · next hq => exact iff_of_false not_fails_ok fun h => h hq
      · next hq => exact iff_of_true ⟨_, rfl⟩ hq
    rw [hquotient]
    constructor
    · exact fun hq => ⟨m, n, rfl, rfl, hq⟩
    · rintro ⟨_, _, hm, hn, hq⟩
      cases hm
      cases hn
      exact hq

theorem rem_fails (ha : a.isNaN = false) (hb : b.isNaN = false) (hz : b.isZero = false) :
    Fails (a.rem b) ↔ a.Huge ∨ b.Huge ∨ ∃ negative, a = .float (.infinite negative) := by
  have hrem : a.rem b =
      onDoubles (fun x y => (x.rem? y).elim (.error .noRemainder) fun r => .ok (.float r)) a b := by
    unfold rem onDoubles
    cases a.toBinary64? with
    | none => rfl
    | some x =>
      cases b.toBinary64? with
      | none => rfl
      | some y => cases h : x.rem? y <;> simp only [h] <;> rfl
  rw [hrem, onDoubles_fails, ← or_assoc]
  by_cases huge : a.Huge ∨ b.Huge
  · exact iff_of_true (.inl huge) (.inl huge)
  obtain ⟨hha, hhb⟩ := not_or.1 huge
  obtain ⟨x, hx, hxn, -, hxi⟩ := exists_toBinary64 hha ha
  obtain ⟨y, hy, hyn, hyz, -⟩ := exists_toBinary64 hhb hb
  have hmissing := Binary64.rem?_eq_none hxn hyn
  rw [hyz, hz, hxi, or_iff_right Bool.false_ne_true] at hmissing
  rw [or_iff_right huge, or_iff_right huge, ← hmissing, hx, hy]
  simp only [Option.some.injEq]
  cases hr : x.rem? y with
  | none => exact iff_of_true ⟨x, y, rfl, rfl, .noRemainder, by rw [hr]; rfl⟩ rfl
  | some r =>
    refine iff_of_false ?_ (by simp)
    rintro ⟨_, _, rfl, rfl, h⟩
    rw [hr] at h
    exact not_fails_ok h

end Fails

end Numeric

end PipelineTemplate.Number
