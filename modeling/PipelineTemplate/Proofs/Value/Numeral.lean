import Mathlib
import PipelineTemplate.Proofs.Value.Comparison

/-!
# Numbers and their texts as operands

A text of digits counts for the double nearest to the number that it spells. A finite double is thus
equal to its own text, and so is a whole number that is the value of a double; other whole numbers are
not. Between texts of whole numbers the order is never reversed, but numbers with one nearest double
become equal.
-/

namespace PipelineTemplate.Value

open Number (Numeric Binary64 readBinary64?)

/-- A number written as a text. -/
def written (n : Numeric) : Value := .text (Value.number n).toText

/-! ## Texts of numbers -/

section Text

variable {s : String} (hs : Yaml.IsNumeral s.toList)
include hs

theorem trim_numeral : Text.trim s.toList = s.toList :=
  Text.trim_of_all fun _ hc => Yaml.isBlank_of_isNumeralChar (List.all_eq_true.1 hs.all_chars _ hc)

/-- A numeral that is read as a double counts for this double. -/
theorem toNumber_numeral {x : Binary64} (hx : readBinary64? s.toList = some x) :
    (Value.text s).toNumber = (Numeric.float x).normalize := by
  rw [toNumber, Text.toNumber, trim_numeral hs]
  simp only [hs.ne_nil, if_false, hx]

/-- A numeral without an exponent is compared as a number. -/
theorem comparand_numeral : (Value.text s).comparand =
    if Text.isPlainNumeral s.toList then .number (Value.text s).toNumber else .text s := by
  have hlower : Text.lower s = s := by
    rw [Text.lower, Yaml.lowerAfter_numeral hs.all_chars, String.ofList_toList]
  have hword (w : String) (hw : w.toList.head?.any fun c => !Yaml.isNumeralChar c) : s ≠ w := by
    have h := Yaml.Schema.notMem_words hs [w] (by simpa using hw)
    rwa [String.ofList_toList, List.mem_singleton] at h
  have htrue : s ≠ "true" := hword _ (by decide)
  have hfalse : s ≠ "false" := hword _ (by decide)
  simp only [comparand, trim_numeral hs, String.ofList_toList, hlower, htrue, hfalse, if_false]
  rfl

end Text

theorem isPlainNumeral_ofInt (n : Int) : Text.isPlainNumeral (Text.ofInt n).toList = true := by
  have hspan := Text.spanDecimal_digits (Text.all_toDigits n.natAbs)
  have hne := Nat.toDigits_ne_nil (b := 10) (n := n.natAbs)
  rw [Text.ofInt_toList]
  by_cases hn : n < 0
  · rw [if_pos hn]
    simp [Text.isPlainNumeral, hspan, hne]
  · rw [if_neg hn]
    have hsign : ∀ ds, Nat.toDigits 10 n.natAbs ≠ '-' :: ds := by
      intro ds hds
      have hall := Text.all_toDigits n.natAbs
      rw [hds] at hall
      cases hall
    simp [Text.isPlainNumeral, hspan, hne]

section Whole

variable (n : Int)

theorem toNumber_ofInt : (Value.text (Text.ofInt n)).toNumber = (Numeric.float (.nearest n)).normalize :=
  toNumber_numeral (Yaml.isNumeral_ofInt n) (Number.readBinary64?_ofInt n)

/-- The text of a whole number is compared as the double nearest to it. -/
theorem comparand_ofInt :
    (Value.text (Text.ofInt n)).comparand = .number (Numeric.float (.nearest n)).normalize := by
  rw [comparand_numeral (Yaml.isNumeral_ofInt n), isPlainNumeral_ofInt, if_pos rfl, toNumber_ofInt]

theorem isNaN_nearest : (Numeric.float (.nearest n)).normalize.isNaN = false := by
  rw [Numeric.isNaN_normalize]
  exact Binary64.nearest_isNaN n

theorem rank_nearest : (Numeric.float (.nearest n)).normalize.rank = (Numeric.float (.nearest n)).rank :=
  Numeric.rank_normalize (Binary64.nearest_isNaN n)

variable {n}

/-- A whole number has the rank of its nearest double exactly if it is the value of a double. -/
theorem rank_nearest_eq_iff : (Numeric.float (.nearest n)).rank = (Numeric.int n).rank ↔ Binary64.IsDouble n := by
  rw [Binary64.isDouble_iff, Binary64.toInt?_eq_some]
  constructor
  · intro h
    rcases Numeric.finite_or_infinite (a := .float (.nearest n)) (Binary64.nearest_isNaN n) with
      ⟨r, hr⟩ | ⟨negative, hinf⟩
    · rw [Numeric.rank_of_toRat? hr, Numeric.rank_int] at h
      have hq : r = n := by exact_mod_cast h
      exact hq ▸ hr
    · rw [hinf, Numeric.rank_infinite] at h
      cases negative <;> cases h
  · exact Numeric.rank_of_toRat? (a := .float (.nearest n))

end Whole

theorem cmp_rank_int (m n : Int) : cmp (Numeric.int m).rank (Numeric.int n).rank = cmp m n := by
  have hmono : StrictMono fun k : Int => (Numeric.int k).rank := by
    intro k l h
    simp only [Numeric.rank_int]
    exact_mod_cast h
  exact hmono.cmp_map_eq m n

section Compare

variable (m n : Int)

theorem compare_ofInt_ofInt : (Value.text (Text.ofInt m)).compare (.text (Text.ofInt n)) =
    cmp (Numeric.float (.nearest m)).rank (Numeric.float (.nearest n)).rank := by
  rw [compare_numbers (comparand_ofInt m) (comparand_ofInt n) (isNaN_nearest m) (isNaN_nearest n),
    rank_nearest, rank_nearest]

theorem compare_ofInt_int : (Value.text (Text.ofInt m)).compare (.int n) =
    cmp (Numeric.float (.nearest m)).rank (Numeric.int n).rank := by
  rw [compare_numbers (comparand_ofInt m) (show (Value.int n).comparand = .number (.int n) from rfl)
    (isNaN_nearest m) rfl, rank_nearest]

end Compare

/-- A double that is finite is equal to its text, as a number and in comparisons. -/
theorem written_float {x : Binary64} (hx : x.isFinite = true) :
    (written (.float x)).toNumber.eq (.float x) = true ∧
      (written (.float x)).compare (.number (.float x)) = .eq := by
  obtain ⟨r, hr⟩ := Option.isSome_iff_exists.1 hx
  have hnan : (Numeric.float x).isNaN = false := by
    cases x with
    | nan => cases hr
    | _ => rfl
  by_cases hwhole : ∃ n : Int, r = n
  · obtain ⟨n, rfl⟩ := hwhole
    have htext : written (.float x) = .text (Text.ofInt n) :=
      congrArg Value.text (Numeric.text_whole (a := .float x) hr)
    have hdouble : Binary64.IsDouble n := ⟨x, Binary64.toInt?_eq_some.2 hr⟩
    have hrank : (Numeric.float (.nearest n)).normalize.rank = (Numeric.float x).rank := by
      rw [rank_nearest, rank_nearest_eq_iff.2 hdouble, Numeric.rank_of_toRat? (a := .float x) hr]
      rfl
    rw [htext, toNumber_ofInt, Numeric.eq_iff_rank (isNaN_nearest n) hnan]
    refine ⟨hrank, ?_⟩
    rw [compare_numbers (comparand_ofInt n) rfl (isNaN_nearest n) hnan, hrank, cmp_self_eq_eq]
  · obtain ⟨negative, m, e, hg, hfloat, ht, hi⟩ :=
      Numeric.text_fraction (a := .float x) hr fun n hn => hwhole ⟨n, hn⟩
    obtain rfl : x = .finite negative m e hg := Numeric.float.inj hfloat
    obtain ⟨hread, hnum, -⟩ := Number.readBinary64?_render Number.literalLayout negative hg
    have htext : written (.float (.finite negative m e hg)) =
        .text (Number.literalLayout.render (.finite negative m e hg)) := congrArg Value.text ht
    have hself : (Numeric.float (.finite negative m e hg)).normalize = .float (.finite negative m e hg) := by
      rw [Numeric.normalize, hi]
    have hnumber := toNumber_numeral hnum hread
    rw [hself] at hnumber
    rw [htext, hnumber]
    refine ⟨(Numeric.eq_iff_rank rfl rfl).2 rfl, ?_⟩
    have hcomparand := comparand_numeral hnum
    split at hcomparand
    · rw [hnumber] at hcomparand
      rw [compare_numbers hcomparand rfl rfl rfl, cmp_self_eq_eq]
    · -- A text with an exponent is compared with the text of the number, which it is itself.
      have hregime : (Value.text (Number.literalLayout.render (.finite negative m e hg))).regime = .text := by
        rw [regime, hcomparand]
      rw [compare_texts fun _ => hregime, comparedText, comparedText, hcomparand, cmp_eq_eq_iff]
      exact ht.symm

/-- Between the texts of whole numbers the order is not reversed. -/
theorem compare_ofInt_ne_gt {m n : Int} (h : m ≤ n) :
    (Value.text (Text.ofInt m)).compare (.text (Text.ofInt n)) ≠ .gt := by
  rw [compare_ofInt_ofInt, ne_eq, cmp_eq_gt_iff, not_lt]
  exact Binary64.rank_nearest_mono h

/-- The text of a whole number takes the place of the number in every comparison exactly if the number
is the value of a double. -/
theorem isDouble_iff_compare {m : Int} :
    Binary64.IsDouble m ↔ ∀ n, (Value.text (Text.ofInt m)).compare (.int n) = cmp m n := by
  constructor
  · intro h n
    rw [compare_ofInt_int, rank_nearest_eq_iff.2 h, cmp_rank_int]
  · intro h
    have hm := h m
    rwa [compare_ofInt_int, cmp_self_eq_eq, cmp_eq_eq_iff, rank_nearest_eq_iff] at hm

/-- Numbers and their texts: a finite double is equal to its text. The text of a whole number counts for
the double nearest to it, so that comparisons with it and between such texts are those of the nearest
doubles: they agree with the numbers exactly for the values of doubles, among them all whole numbers of
up to 53 binary digits, and never reverse the order of two texts. -/
theorem written_agreement (x : Binary64) (m n : Int) :
    (x.isFinite = true → (written (.float x)).toNumber.eq (.float x) = true ∧
      (written (.float x)).compare (.number (.float x)) = .eq) ∧
    ((written (.int m)).toNumber = (Numeric.float (.nearest m)).normalize ∧
      ((written (.int m)).toNumber.eq (.int m) = true ↔ Binary64.IsDouble m)) ∧
    ((written (.int m)).compare (written (.int n)) =
        cmp (Numeric.float (.nearest m)).rank (Numeric.float (.nearest n)).rank ∧
      (written (.int m)).compare (.int n) = cmp (Numeric.float (.nearest m)).rank (Numeric.int n).rank) ∧
    (m ≤ n → (written (.int m)).compare (written (.int n)) ≠ .gt) ∧
    (Binary64.IsDouble m ↔ ∀ k : Int, (written (.int m)).compare (.int k) = cmp m k) ∧
    (Binary64.IsDouble m → Binary64.IsDouble n → (written (.int m)).compare (written (.int n)) = cmp m n) ∧
    (n.natAbs ≤ 2 ^ 53 → Binary64.IsDouble n) := by
  refine ⟨written_float, ⟨toNumber_ofInt m, ?_⟩, ⟨compare_ofInt_ofInt m n, compare_ofInt_int m n⟩,
    compare_ofInt_ne_gt, isDouble_iff_compare, fun hm hn => ?_, Binary64.isDouble_of_natAbs_le⟩
  · rw [← rank_nearest_eq_iff, ← rank_nearest, ← Numeric.eq_iff_rank (isNaN_nearest m) rfl, ← toNumber_ofInt]
    rfl
  · rw [← cmp_rank_int, ← rank_nearest_eq_iff.2 hm, ← rank_nearest_eq_iff.2 hn]
    exact compare_ofInt_ofInt m n

/-- The texts of seven and ten are in order, and a half is equal to its text. -/
theorem written_agreement_small :
    (written (.int 7)).compare (written (.int 10)) = .lt ∧
      (written (.float (.round false 1 2))).toNumber.eq (.float (.round false 1 2)) = true := by
  obtain ⟨hfloat, -, -, -, -, hint, hten⟩ := written_agreement (.round false 1 2) 7 10
  have hseven : Binary64.IsDouble 7 := Binary64.isDouble_of_natAbs_le (by decide)
  exact ⟨(hint hseven (hten (by decide))).trans (by decide), (hfloat (by decide +kernel)).1⟩

/-- The least natural number that is not the value of a double is above its own text. -/
example : (written (.int 9007199254740993)).compare (.int 9007199254740993) = .lt := by decide +kernel

end PipelineTemplate.Value
