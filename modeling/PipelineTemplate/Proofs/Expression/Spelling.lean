import Mathlib
import PipelineTemplate.Value.Literal
import PipelineTemplate.Proofs.Expression.Terminal
import PipelineTemplate.Proofs.Number.Layout

/-!
# Writing tokens

A token is written down as one of its spellings: a number by the fewest digits that denote it, a text in
quotation marks or apostrophes. Every text can be quoted; a number needs a numeral, which the negative
numbers, the infinities and the whole doubles have not.
-/

namespace PipelineTemplate

open Number

/-! ## Numerals -/

theorem Value.literal_int (n : Int) : (Value.number (.int n)).literal = Text.ofInt n := rfl

theorem Value.literal_float (x : Binary64) :
    (Value.number (.float x)).literal = literalLayout.render x := rfl

/-- Whether a number has a numeral: an integer that is not negative, or a finite double above zero that
is not whole. -/
def Number.Numeric.hasNumeral : Numeric → Bool
  | .int n => 0 ≤ n
  | .float x => x.isFinite && !x.isNegative && x.toInt?.isNone

namespace Token

theorem digits_of_all {ds : List Char} (hne : ds ≠ []) (h : ds.all Text.isPlainDigit = true) :
    Digits ds :=
  ⟨hne, List.all_eq_true.1 (all_isDecimal h)⟩

theorem exponent_of_text {tail : List Char} {e : Int} (h : ExponentText tail e) : Exponent tail e := by
  cases h with
  | none => exact .none
  | @minus ds hd hn =>
    simpa using Exponent.mark (.inl rfl) (.inr (.inr rfl)) (digits_of_all hn hd)
  | @plus ds hd hn =>
    simpa using Exponent.mark (.inl rfl) (.inr (.inl rfl)) (digits_of_all hn hd)

theorem numeral_of_pointText {cs : List Char} {d : Decimal} (h : PointText cs d) :
    Numeral cs (Numeric.float (d.toBinary64 false)).normalize := by
  obtain ⟨wholeDigits, wholeNonempty, fractionDigits, fractionNonempty, exponentText, denotes⟩ := h
  rename_i whole fraction tail exponent
  rw [← Decimal.toBinary64_congr denotes]
  have hf := Fraction.point (digits_of_all fractionNonempty fractionDigits)
  exact .real (digits_of_all wholeNonempty wholeDigits) hf (exponent_of_text exponentText) (by simp)

theorem numeral_of_unsignedText {always : Bool} {cs : List Char} {d : Decimal} (h : UnsignedText always cs d) :
    Numeral cs (Numeric.float (d.toBinary64 false)).normalize := by
  cases h with
  | point h => exact numeral_of_pointText h
  | @digit c tail exponent hc exponentText =>
    have hone : [c].all Text.isPlainDigit = true := by simp [hc]
    have hnumeral := Numeral.real (digits_of_all (by simp) hone) .none (exponent_of_text exponentText) (by simp)
    simpa [realValue] using hnumeral

/-- Digits are laid out as a numeral of the double nearest to their value. -/
theorem numeral_digits (layout : Layout) {ds : List Char} (hd : ds.all Text.isPlainDigit = true)
    (hn : ds ≠ []) (e : Int) : Numeral (layout.digits ds e).toList
      (Numeric.float ((Decimal.mk (Text.numeral ds) (e - (ds.length - 1))).toBinary64 false)).normalize :=
  numeral_of_unsignedText (Layout.unsignedText_digits hd layout hn e)

theorem numeral_ofInt {n : Int} (h : 0 ≤ n) : Numeral (Text.ofInt n).toList (.int n) := by
  obtain ⟨k, rfl⟩ := Int.eq_ofNat_of_zero_le h
  have hdigits := digits_of_all Nat.toDigits_ne_nil (Text.all_toDigits k)
  have hnumeral := Numeral.whole hdigits
  rw [Text.numeral_toDigits] at hnumeral
  rw [Text.ofInt, if_neg (by omega)]
  simpa [Text.ofNat] using hnumeral

/-- A finite double that is not whole is written as a numeral that denotes it. -/
theorem numeral_render (layout : Layout) {x : Binary64} (hfinite : x.isFinite = true)
    (hsign : x.isNegative = false) (hwhole : x.toInt? = none) :
    Numeral (layout.render x).toList (.float x) := by
  cases x with
  | infinite | nan => cases hfinite
  | finite negative m e h =>
    have hm : m ≠ 0 := by
      rintro rfl
      cases negative <;> simp [Binary64.toInt?, Binary64.toRat?] at hwhole
    obtain rfl : negative = false := hsign
    obtain ⟨d, hd, ht⟩ := Layout.render_nonzero layout false h hm
    have hnumeral := numeral_digits layout (Text.all_toDigits d.digits) Nat.toDigits_ne_nil
      (d.exponent + (Nat.toDigits 10 d.digits).length - 1)
    have hexponent : d.exponent + ((Nat.toDigits 10 d.digits).length : Int) - 1 -
        ((Nat.toDigits 10 d.digits).length - 1) = d.exponent := by omega
    have hread : d.toBinary64 false = .finite false m e h := by
      rw [hd]
      exact (shortest_toBinary64 h (Nat.pos_of_ne_zero hm) false).2
    rw [Text.numeral_toDigits, hexponent, hread, Numeric.normalize, hwhole] at hnumeral
    rw [ht]
    simpa using hnumeral

theorem numeral_literal {n : Numeric} (h : n.hasNumeral = true) :
    Numeral (Value.number n).literal.toList n := by
  cases n with
  | int n =>
    rw [Value.literal_int]
    exact numeral_ofInt (by simpa [Numeric.hasNumeral] using h)
  | float x =>
    obtain ⟨⟨hfinite, hsign⟩, hwhole⟩ := by
      simpa only [Numeric.hasNumeral, Bool.and_eq_true, Bool.not_eq_true', Option.isNone_iff_eq_none]
        using h
    rw [Value.literal_float]
    exact numeral_render _ hfinite hsign hwhole

end Token

/-! ## Quotations -/

namespace Token

/-- A text with a backslash before its quotation marks and backslashes. -/
def backslashed (s : List Char) : List Char :=
  s.flatMap fun c => if c = '"' ∨ c = '\\' then ['\\', c] else [c]

theorem backslashed_cons_special {c : Char} (hc : c = '"' ∨ c = '\\') (s : List Char) :
    backslashed (c :: s) = '\\' :: c :: backslashed s := by
  rw [backslashed, List.flatMap_cons, if_pos hc]
  rfl

theorem backslashed_cons_plain {c : Char} (hc : ¬ (c = '"' ∨ c = '\\')) (s : List Char) :
    backslashed (c :: s) = c :: backslashed s := by
  rw [backslashed, List.flatMap_cons, if_neg hc]
  rfl

theorem quotable_backslashed (s : List Char) : Quotable (backslashed s) := by
  induction s with
  | nil => exact .nil
  | cons c s ih =>
    by_cases hc : c = '"' ∨ c = '\\'
    · rw [backslashed_cons_special hc]
      refine .escape ?_ ih
      rcases hc with rfl | rfl <;> decide
    · rw [backslashed_cons_plain hc]
      exact .plain (not_or.1 hc) ih

/-- The escapes that are put are those that are resolved. -/
theorem unescape_backslashed (s : List Char) : unescape (backslashed s) = s := by
  induction s with
  | nil => rw [backslashed, List.flatMap_nil, unescape]
  | cons c s ih =>
    by_cases hc : c = '"' ∨ c = '\\'
    · rw [backslashed_cons_special hc, unescape, ih]
      · rcases hc with rfl | rfl <;> rfl
      · rcases hc with rfl | rfl <;> simp
    · rw [backslashed_cons_plain hc, unescape, ih]
      · intros; simp_all
      · intros; simp_all

end Token

/-- How texts are quoted. -/
inductive Quotation where
  /-- Between apostrophes, with two of them for one. -/
  | apostrophes
  /-- Between quotation marks, with a backslash before quotation marks and backslashes. -/
  | marks
  deriving DecidableEq

def Quotation.quote : Quotation → List Char → List Char
  | .apostrophes, s => '\'' :: (Token.doubled s ++ ['\''])
  | .marks, s => '"' :: (Token.backslashed s ++ ['"'])

theorem Quotation.spells (q : Quotation) (s : String) : Token.Spells (q.quote s.toList) (.text s) := by
  cases q with
  | apostrophes => simpa [quote] using Token.Spells.apostrophed s.toList
  | marks =>
    simpa [quote, Token.unescape_backslashed] using
      Token.Spells.quoted (Token.quotable_backslashed s.toList)

/-! ## Tokens -/

def Text.isName : List Char → Bool
  | [] => false
  | c :: cs => isNameStart c && cs.all isNameChar

namespace Token

/-- The text of a token. -/
def written (q : Quotation) : Token → List Char
  | .number n => (Value.number n).literal.toList
  | .text s => q.quote s.toList
  | .name s => s.toList
  | .mark m => [m.symbol]
  | .binary op => op.symbol.toList
  | .logical op => op.symbol.toList

/-- Whether the text of a token spells it. -/
def isWritable : Token → Bool
  | .number n => n.hasNumeral
  | .name s => Text.isName s.toList
  | _ => true

theorem spells_written (q : Quotation) {t : Token} (h : t.isWritable = true) :
    Spells (t.written q) t := by
  cases t with
  | number n => exact .number (numeral_literal h)
  | text s => exact q.spells s
  | name s =>
    have hs : Text.isName s.toList = true := h
    rw [written, ← String.ofList_toList (s := s)]
    cases hcs : s.toList with
    | nil => rw [hcs] at hs; cases hs
    | cons c cs =>
      rw [hcs, Text.isName, Bool.and_eq_true] at hs
      simpa using Spells.name hs.1 (List.all_eq_true.1 hs.2)
  | mark | binary | logical => exact .symbol rfl

end Token
end PipelineTemplate
