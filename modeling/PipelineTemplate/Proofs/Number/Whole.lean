import PipelineTemplate.Number.Whole
import PipelineTemplate.Proofs.Text.Blank
import PipelineTemplate.Proofs.Text.Digit

/-!
# Whole numbers in decimal digits

A whole number is read back from its decimal digits and its sign.
-/

namespace PipelineTemplate

namespace Text

theorem isBlank_of_isPlainDigit {c : Char} (h : isPlainDigit c = true) : isBlank c = false := by
  have hb := isPlainDigit_iff.1 h
  simp only [isBlank, Bool.or_eq_false_iff, Bool.and_eq_false_iff, decide_eq_false_iff_not,
    beq_eq_false_iff_ne]
  omega

theorem ofInt_toList (n : Int) :
    (ofInt n).toList = if n < 0 then '-' :: Nat.toDigits 10 n.natAbs else Nat.toDigits 10 n.natAbs := by
  unfold ofInt ofNat
  split <;> simp

theorem isBlank_of_mem_ofInt {n : Int} {c : Char} (h : c ∈ (ofInt n).toList) : isBlank c = false := by
  rw [ofInt_toList] at h
  split at h
  · rcases List.mem_cons.1 h with rfl | h
    · rfl
    · exact isBlank_of_isPlainDigit (isPlainDigit_of_mem_toDigits h)
  · exact isBlank_of_isPlainDigit (isPlainDigit_of_mem_toDigits h)

end Text

namespace Number

theorem digitValue?_plain {c : Char} (h : Text.isPlainDigit c = true) :
    digitValue? c = some (c.toNat - 48) := by
  rw [digitValue?, Text.decimalValue?_plain h]

theorem groupedNumeral?_plain {ds : List Char} (hd : ds.all Text.isPlainDigit = true) (hn : ds ≠ [])
    (n : Nat) : groupedNumeral? 10 n ds = some (Nat.ofDigitChars 10 ds n) := by
  induction ds generalizing n with
  | nil => exact absurd rfl hn
  | cons c cs ih =>
    rw [List.all_cons, Bool.and_eq_true] at hd
    have hb := Text.isPlainDigit_iff.1 hd.1
    have hlt : c.toNat - 48 < 10 := by omega
    cases cs with
    | nil =>
      simp [groupedNumeral?, digitValue?_plain hd.1, hlt, Nat.ofDigitChars_cons]
    | cons d cs =>
      have hlow : d ≠ '_' := by
        rintro rfl
        have := hd.2
        simp [Text.isPlainDigit] at this
      rw [Nat.ofDigitChars_cons, ← ih hd.2 (by simp)]
      simp [groupedNumeral?, hlow, digitValue?_plain hd.1, hlt]

/-- The number that digits in a base spell, perhaps behind the mark of the base. -/
def markedNumeral? (base : Nat) (cs : List Char) : Option Nat :=
  match cs with
  | '0' :: mark :: rest =>
    if (baseLetter? base).any fun letter => mark = letter || mark = letter.toUpper then
      groupedNumeral? base 0 (if rest.head? = some '_' then rest.tail else rest)
    else groupedNumeral? base 0 cs
  | _ => groupedNumeral? base 0 cs

/-- Decimal digits have no mark of their base. -/
theorem markedNumeral?_ten (cs : List Char) : markedNumeral? 10 cs = groupedNumeral? 10 0 cs := by
  unfold markedNumeral?
  split <;> rfl

section Sign

theorem map_lift (o : Option Nat) (f : Int → Int) :
    Option.map f (do return ((← o) : Int)) = o.map fun n : Nat => f n := by
  cases o <;> rfl

variable {base : Nat} {c : Char} {cs : List Char}

theorem readWhole?_minus (h : Text.trim ('-' :: cs) = '-' :: cs) :
    readWhole? base ('-' :: cs) = (markedNumeral? base cs).map fun n : Nat => -(n : Int) := by
  unfold readWhole?
  rw [h]
  exact map_lift (markedNumeral? base cs) (- ·)

theorem readWhole?_plus (h : Text.trim ('+' :: cs) = '+' :: cs) :
    readWhole? base ('+' :: cs) = (markedNumeral? base cs).map fun n : Nat => (n : Int) := by
  unfold readWhole?
  rw [h]
  exact map_lift (markedNumeral? base cs) id

theorem readWhole?_unsigned (hminus : c ≠ '-') (hplus : c ≠ '+') (h : Text.trim (c :: cs) = c :: cs) :
    readWhole? base (c :: cs) = (markedNumeral? base (c :: cs)).map fun n : Nat => (n : Int) := by
  unfold readWhole?
  rw [h]
  split
  · next heq => exact absurd (List.cons.inj heq).1 hminus
  · next heq => exact absurd (List.cons.inj heq).1 hplus
  · exact map_lift (markedNumeral? base (c :: cs)) id

end Sign

/-- A whole number is read back from its digits. -/
theorem readWhole?_ofInt (n : Int) : readWhole? 10 (Text.ofInt n).toList = some n := by
  have ht : Text.trim (Text.ofInt n).toList = (Text.ofInt n).toList :=
    Text.trim_of_all fun c => Text.isBlank_of_mem_ofInt
  have hg : groupedNumeral? 10 0 (Nat.toDigits 10 n.natAbs) = some n.natAbs := by
    rw [groupedNumeral?_plain (Text.all_toDigits _) Nat.toDigits_ne_nil, Nat.ofDigitChars_ten_toDigits]
  rw [Text.ofInt_toList] at ht ⊢
  split at ht
  · rw [if_pos ‹_›, readWhole?_minus ht, markedNumeral?_ten, hg, Option.map_some, Option.some.injEq]
    omega
  · rw [if_neg ‹_›]
    cases hds : Nat.toDigits 10 n.natAbs with
    | nil => exact absurd hds Nat.toDigits_ne_nil
    | cons d ds =>
      have hp := Text.isPlainDigit_iff.1 (Text.isPlainDigit_of_mem_toDigits (by rw [hds]; exact List.mem_cons_self))
      have hsign {sign : Char} (hs : sign.toNat < 48) : d ≠ sign := by
        rintro rfl
        omega
      rw [hds] at ht hg
      rw [readWhole?_unsigned (hsign (by decide)) (hsign (by decide)) ht, markedNumeral?_ten, hg, Option.map_some,
        Option.some.injEq]
      omega

/-! ## Digits of a base -/

/-- A digit of a base up to sixteen. -/
def IsDigitOf (base : Nat) (c : Char) : Prop := ∃ d ∈ Text.hexValue? c, d < base

instance (base : Nat) (c : Char) : Decidable (IsDigitOf base c) :=
  inferInstanceAs (Decidable (∃ d ∈ Text.hexValue? c, d < base))

theorem IsDigitOf.range {base : Nat} {c : Char} (h : IsDigitOf base c) :
    48 ≤ c.toNat ∧ c.toNat ≤ 57 ∨ 97 ≤ c.toNat ∧ c.toNat ≤ 102 ∨ 65 ≤ c.toNat ∧ c.toNat ≤ 70 := by
  obtain ⟨d, hd, -⟩ := h
  have hcases := Text.hexValue?_cases hd
  omega

theorem IsDigitOf.not_blank {base : Nat} {c : Char} (h : IsDigitOf base c) : Text.isBlank c = false := by
  have hc := h.range
  simp only [Text.isBlank, Bool.or_eq_false_iff, Bool.and_eq_false_iff, decide_eq_false_iff_not, beq_eq_false_iff_ne]
  omega

theorem IsDigitOf.digitValue {base : Nat} {c : Char} (h : IsDigitOf base c) :
    ∃ d, digitValue? c = some d ∧ d < base := by
  have hc := h.range
  obtain ⟨d, hd, hlt⟩ := h
  refine ⟨d, ?_, hlt⟩
  rw [digitValue?, Text.decimalValue?, if_pos (by omega)]
  by_cases hplain : (decide ('0' ≤ c) && decide (c ≤ '9')) = true
  · rw [Option.mem_def, Text.hexValue?, if_pos hplain] at hd
    rw [if_pos hplain]
    exact hd
  · rw [if_neg hplain]
    exact hd

theorem isDigitOf_of_isPlainDigit {c : Char} (h : Text.isPlainDigit c = true) : IsDigitOf 10 c := by
  have hc := Text.isPlainDigit_iff.1 h
  exact ⟨c.toNat - 48, if_pos h, by omega⟩

theorem groupedNumeral?_digits {base : Nat} {ds : List Char} (hd : ∀ c ∈ ds, IsDigitOf base c) (hn : ds ≠ [])
    (n : Nat) : ∃ m, groupedNumeral? base n ds = some m := by
  induction ds generalizing n with
  | nil => exact absurd rfl hn
  | cons c cs ih =>
    obtain ⟨hc, hcs⟩ := List.forall_mem_cons.1 hd
    obtain ⟨d, hvalue, hlt⟩ := hc.digitValue
    cases cs with
    | nil => exact ⟨base * n + d, by simp [groupedNumeral?, hvalue, hlt]⟩
    | cons e es =>
      have hlow : e ≠ '_' := by
        rintro rfl
        have hrange := (hcs '_' List.mem_cons_self).range
        revert hrange
        decide
      obtain ⟨m, hm⟩ := ih hcs (List.cons_ne_nil _ _) (base * n + d)
      exact ⟨m, by simp [groupedNumeral?, hlow, hvalue, hlt, hm]⟩

/-- The letter that marks a base is no digit of it. -/
theorem not_isDigitOf_letter {base : Nat} {letter : Char} (h : letter ∈ baseLetter? base) :
    ¬IsDigitOf base letter ∧ ¬IsDigitOf base letter.toUpper := by
  rw [Option.mem_def, baseLetter?] at h
  split at h
  · next hbase =>
    cases h
    subst hbase
    decide
  split at h
  · next hbase =>
    cases h
    subst hbase
    decide
  split at h
  · next hbase =>
    cases h
    subst hbase
    decide
  · cases h

/-- Digits of a base have no mark of it in front. -/
theorem markedNumeral?_digits {base : Nat} {ds : List Char} (hd : ∀ c ∈ ds, IsDigitOf base c) :
    markedNumeral? base ds = groupedNumeral? base 0 ds := by
  unfold markedNumeral?
  split
  · next mark rest =>
    have hmark : IsDigitOf base mark := hd mark (by simp)
    rw [if_neg]
    intro hany
    obtain ⟨letter, hletter, heq⟩ := Option.any_eq_true _ _ |>.1 hany
    obtain ⟨hsmall, hcapital⟩ := not_isDigitOf_letter hletter
    rw [Bool.or_eq_true, decide_eq_true_iff, decide_eq_true_iff] at heq
    rcases heq with rfl | rfl
    · exact hsmall hmark
    · exact hcapital hmark
  · rfl

/-- What may stand in front of the digits of a number. -/
abbrev signs : List (List Char) := [[], ['+'], ['-']]

/-- Digits of a base are read, with a sign or without one. -/
theorem readWhole?_digits {base : Nat} {sign ds : List Char} (hsign : sign ∈ signs)
    (hd : ∀ c ∈ ds, IsDigitOf base c) (hn : ds ≠ []) : ∃ n, readWhole? base (sign ++ ds) = some n := by
  obtain ⟨m, hm⟩ := groupedNumeral?_digits hd hn 0
  rw [← markedNumeral?_digits hd] at hm
  simp only [List.mem_cons, List.not_mem_nil, or_false] at hsign
  have htrim : Text.trim (sign ++ ds) = sign ++ ds := by
    refine Text.trim_of_all fun c hc => ?_
    rcases List.mem_append.1 hc with hc | hc
    · rcases hsign with rfl | rfl | rfl
      · cases hc
      · rw [List.mem_singleton.1 hc]
        rfl
      · rw [List.mem_singleton.1 hc]
        rfl
    · exact (hd c hc).not_blank
  rcases hsign with rfl | rfl | rfl
  · cases ds with
    | nil => exact absurd rfl hn
    | cons d ds =>
      have hfirst := (hd d List.mem_cons_self).range
      have hne {sign : Char} (hs : sign.toNat < 48) : d ≠ sign := by
        rintro rfl
        omega
      rw [List.nil_append] at htrim ⊢
      exact ⟨m, by rw [readWhole?_unsigned (hne (by decide)) (hne (by decide)) htrim, hm, Option.map_some]⟩
  · rw [List.singleton_append] at htrim ⊢
    exact ⟨m, by rw [readWhole?_plus htrim, hm, Option.map_some]⟩
  · rw [List.singleton_append] at htrim ⊢
    exact ⟨-m, by rw [readWhole?_minus htrim, hm, Option.map_some]⟩

end Number

end PipelineTemplate
