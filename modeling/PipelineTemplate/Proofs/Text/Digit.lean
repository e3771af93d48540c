import Mathlib.Algebra.Group.Nat.Defs
import Mathlib.Data.List.TakeDrop
import PipelineTemplate.Text.Digit

/-!
# Runs of digits

A run of plain digits spells the number that it was made from, and spelling is positional: zeros in
front change nothing, and what comes behind shifts what stands in front.
-/

namespace PipelineTemplate.Text

theorem isPlainDigit_eq (c : Char) : isPlainDigit c = c.isDigit := rfl

theorem isPlainDigit_of_mem_toDigits {n : Nat} {c : Char} (h : c ∈ Nat.toDigits 10 n) :
    isPlainDigit c = true := by
  rw [isPlainDigit_eq]
  exact Nat.isDigit_of_mem_toDigits (by decide) (by decide) h

theorem isPlainDigit_iff {c : Char} : isPlainDigit c = true ↔ 48 ≤ c.toNat ∧ c.toNat ≤ 57 := by
  rw [isPlainDigit, Bool.and_eq_true, decide_eq_true_iff, decide_eq_true_iff]
  exact Iff.rfl

theorem decimalValue?_plain {c : Char} (h : isPlainDigit c = true) :
    decimalValue? c = some (c.toNat - 48) := by
  have hb := isPlainDigit_iff.1 h
  have hd : (decide ('0' ≤ c) && decide (c ≤ '9')) = true := h
  rw [decimalValue?, if_pos (by omega), if_pos hd]

theorem isDecimal_of_isPlainDigit {c : Char} (h : isPlainDigit c = true) : isDecimal c = true := by
  rw [isDecimal, decimalValue?_plain h]
  rfl

theorem isDecimal_of_toNat_lt {c : Char} (h : c.toNat < 128) : isDecimal c = isPlainDigit c := by
  rw [isDecimal, decimalValue?, if_pos h, isPlainDigit]
  cases '0' ≤ c && c ≤ '9' <;> rfl

/-- The digits of base sixteen and their values. -/
theorem hexValue?_cases {c : Char} {d : Nat} (h : hexValue? c = some d) :
    48 ≤ c.toNat ∧ c.toNat ≤ 57 ∧ d = c.toNat - 48 ∨ 97 ≤ c.toNat ∧ c.toNat ≤ 102 ∧ d = c.toNat - 87 ∨
      65 ≤ c.toNat ∧ c.toNat ≤ 70 ∧ d = c.toNat - 55 := by
  have hbounds {low high : Char} (hc : (decide (low ≤ c) && decide (c ≤ high)) = true) :
      low.toNat ≤ c.toNat ∧ c.toNat ≤ high.toNat := by
    rw [Bool.and_eq_true, decide_eq_true_iff, decide_eq_true_iff] at hc
    exact hc
  unfold hexValue? at h
  split at h
  · next hc =>
    obtain ⟨hlow, hhigh⟩ := hbounds hc
    exact .inl ⟨hlow, hhigh, (Option.some.inj h).symm⟩
  split at h
  · next hc =>
    obtain ⟨hlow, hhigh⟩ := hbounds hc
    exact .inr (.inl ⟨hlow, hhigh, (Option.some.inj h).symm⟩)
  split at h
  · next hc =>
    obtain ⟨hlow, hhigh⟩ := hbounds hc
    exact .inr (.inr ⟨hlow, hhigh, (Option.some.inj h).symm⟩)
  · cases h

/-! ## What a run spells -/

theorem numeral_plain {cs : List Char} (h : cs.all isPlainDigit = true) :
    numeral cs = Nat.ofDigitChars 10 cs 0 := by
  have hfold (n : Nat) : cs.foldl (fun n c => 10 * n + (decimalValue? c).getD 0) n =
      Nat.ofDigitChars 10 cs n := by
    induction cs generalizing n with
    | nil => rfl
    | cons c cs ih =>
      rw [List.all_cons, Bool.and_eq_true] at h
      rw [List.foldl_cons, Nat.ofDigitChars_cons, ih h.2, decimalValue?_plain h.1]
      rfl
  exact hfold 0

theorem all_toDigits (n : Nat) : (Nat.toDigits 10 n).all isPlainDigit = true := by
  rw [List.all_eq_true]
  intro c hc
  exact isPlainDigit_of_mem_toDigits hc

theorem all_ofNat (n : Nat) : (ofNat n).toList.all isPlainDigit = true := by
  rw [ofNat, String.toList_ofList]
  exact all_toDigits n

theorem ofNat_ne_nil (n : Nat) : (ofNat n).toList ≠ [] := by simp [ofNat]

@[simp] theorem numeral_toDigits (n : Nat) : numeral (Nat.toDigits 10 n) = n := by
  rw [numeral_plain (all_toDigits n), Nat.ofDigitChars_ten_toDigits]

@[simp] theorem ofInt_natCast (n : Nat) : ofInt n = ofNat n := by simp [ofInt]

theorem numeral_append {xs ys : List Char} (hx : xs.all isPlainDigit = true)
    (hy : ys.all isPlainDigit = true) : numeral (xs ++ ys) = numeral xs * 10 ^ ys.length + numeral ys := by
  have hxy : (xs ++ ys).all isPlainDigit = true := by rw [List.all_append, hx, hy]; rfl
  rw [numeral_plain hxy, numeral_plain hx, numeral_plain hy, Nat.ofDigitChars_append,
    Nat.ofDigitChars_eq_ofDigitChars_zero, Nat.mul_comm]

theorem all_zeros (n : Nat) : (List.replicate n '0').all isPlainDigit = true := by
  rw [List.all_eq_true]
  intro c hc
  rw [List.eq_of_mem_replicate hc]
  rfl

theorem numeral_zeros (n : Nat) : numeral (List.replicate n '0') = 0 := by
  rw [numeral_plain (all_zeros n), Nat.ofDigitChars_replicate_zero, Nat.mul_zero]

/-! ## Taking a run off the front -/

/-- A text that no digit begins. -/
def NoDigitFirst (cs : List Char) : Prop := cs.head?.all fun c => !isDecimal c

theorem spanDecimal_of_isDecimal {ds cs : List Char} (hd : ∀ c ∈ ds, isDecimal c = true)
    (hc : NoDigitFirst cs) : spanDecimal (ds ++ cs) = (ds, cs) := by
  rw [spanDecimal, List.span_eq_takeWhile_dropWhile]
  have hn : cs.takeWhile isDecimal = [] ∧ cs.dropWhile isDecimal = cs := by
    cases cs with
    | nil => exact ⟨rfl, rfl⟩
    | cons c cs =>
      have h : isDecimal c = false := by simpa [NoDigitFirst] using hc
      simp [h]
  rw [List.takeWhile_append_of_pos hd, List.dropWhile_append_of_pos hd, hn.1, hn.2, List.append_nil]

theorem spanDecimal_append {ds cs : List Char} (hd : ds.all isPlainDigit = true)
    (hc : NoDigitFirst cs) : spanDecimal (ds ++ cs) = (ds, cs) :=
  spanDecimal_of_isDecimal (fun c h => isDecimal_of_isPlainDigit (List.all_eq_true.1 hd c h)) hc

theorem spanDecimal_digits {ds : List Char} (hd : ds.all isPlainDigit = true) : spanDecimal ds = (ds, []) := by
  have hnone : NoDigitFirst [] := rfl
  have h := spanDecimal_append hd hnone
  rwa [List.append_nil] at h

end PipelineTemplate.Text
