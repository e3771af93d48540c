import PipelineTemplate.Expression.Token
import PipelineTemplate.Proofs.Text.Digit
import Mathlib

/-!
# The terminals of the grammar

How tokens are spelled, and that the token at the beginning of a text is the longest one that is
spelled there.
-/

namespace PipelineTemplate

/-- The character of a mark. -/
def Mark.symbol : Mark → Char
  | .question => '?'
  | .colon => ':'
  | .comma => ','
  | .dot => '.'
  | .bang => '!'
  | .openParen => '('
  | .closeParen => ')'
  | .openBracket => '['
  | .closeBracket => ']'
  | .openBrace => '\x7b'
  | .closeBrace => '\x7d'

namespace Token

/-! ## Spellings -/

/-- The spelling of an operator or a mark. -/
def symbol? : Token → Option (List Char)
  | .mark m => some [m.symbol]
  | .binary op => some op.symbol.toList
  | .logical op => some op.symbol.toList
  | _ => none

/-- A run of decimal digits, not empty. -/
def Digits (ds : List Char) : Prop := ds ≠ [] ∧ ∀ c ∈ ds, Text.isDecimal c = true

/-- A point and digits, or nothing, with the digits. -/
inductive Fraction : List Char → List Char → Prop where
  | none : Fraction [] []
  | point {ds : List Char} (h : Digits ds) : Fraction ('.' :: ds) ds

/-- A mark, perhaps a sign, and digits, or nothing, with the number that is spelled. -/
inductive Exponent : List Char → Int → Prop where
  | none : Exponent [] 0
  | mark {mark : Char} {sign ds : List Char} (hm : mark = 'e' ∨ mark = 'E')
      (hs : sign = [] ∨ sign = ['+'] ∨ sign = ['-']) (h : Digits ds) :
      Exponent (mark :: (sign ++ ds)) (if sign = ['-'] then -(Text.numeral ds : Int) else Text.numeral ds)

/-- The double nearest to a number that is written with a fraction or an exponent. A double that is
whole becomes an integer. -/
def realValue (whole fraction : List Char) (exponent : Int) : Number.Numeric :=
  (Number.Numeric.float ((Number.Decimal.mk (Text.numeral (whole ++ fraction))
    (exponent - fraction.length)).toBinary64 false)).normalize

inductive Numeral : List Char → Number.Numeric → Prop where
  | whole {ds : List Char} (h : Digits ds) : Numeral ds (.int (Text.numeral ds))
  | real {ds f fs x : List Char} {e : Int} (h : Digits ds) (hf : Fraction f fs) (hx : Exponent x e)
      (hne : ¬ (f = [] ∧ x = [])) : Numeral (ds ++ (f ++ x)) (realValue ds fs e)

/-- A text with its apostrophes doubled. -/
def doubled (s : List Char) : List Char := s.flatMap fun c => if c = '\'' then ['\'', '\''] else [c]

/-- What may stand between quotation marks: a mark stands behind a backslash, and a backslash before any
character but a line break. -/
inductive Quotable : List Char → Prop where
  | nil : Quotable []
  | plain {c : Char} {cs : List Char} (hc : c ≠ '"' ∧ c ≠ '\\') (h : Quotable cs) : Quotable (c :: cs)
  | escape {c : Char} {cs : List Char} (hc : c ≠ '\n') (h : Quotable cs) : Quotable ('\\' :: c :: cs)

/-- The spellings of tokens. -/
inductive Spells : List Char → Token → Prop where
  | name {c : Char} {cs : List Char} (hc : Text.isNameStart c = true)
      (hcs : ∀ c ∈ cs, Text.isNameChar c = true) : Spells (c :: cs) (.name (String.ofList (c :: cs)))
  | number {cs : List Char} {n : Number.Numeric} (h : Numeral cs n) : Spells cs (.number n)
  | apostrophed (s : List Char) : Spells ('\'' :: (doubled s ++ ['\''])) (.text (String.ofList s))
  | quoted {body : List Char} (h : Quotable body) :
      Spells ('"' :: (body ++ ['"'])) (.text (String.ofList (unescape body)))
  | symbol {cs : List Char} {t : Token} (h : t.symbol? = some cs) : Spells cs t

/-! ## Numbers -/

section
variable {ds f fs x : List Char} {e : Int}

theorem spanDecimal_run (h : ∀ c ∈ ds, Text.isDecimal c = true) (r : List Char) :
    Text.spanDecimal (ds ++ r) = (ds ++ (Text.spanDecimal r).1, (Text.spanDecimal r).2) := by
  simp only [Text.spanDecimal, List.span_eq_takeWhile_dropWhile]
  rw [List.takeWhile_append_of_pos h, List.dropWhile_append_of_pos h]

theorem spanDecimal_append (r : List Char) : (Text.spanDecimal r).1 ++ (Text.spanDecimal r).2 = r := by
  rw [Text.spanDecimal, List.span_eq_takeWhile_dropWhile, List.takeWhile_append_dropWhile]

theorem digits_spanDecimal {r : List Char} (h : (Text.spanDecimal r).1 ≠ []) :
    Digits (Text.spanDecimal r).1 := by
  refine ⟨h, ?_⟩
  rw [Text.spanDecimal, List.span_eq_takeWhile_dropWhile]
  exact List.all_eq_true.1 List.all_takeWhile

theorem length_spanDecimal (r : List Char) : (Text.spanDecimal r).2.length ≤ r.length := by
  have h := congrArg List.length (spanDecimal_append r)
  rw [List.length_append] at h
  omega

theorem spanFraction_point (r : List Char) : spanFraction ('.' :: r) =
    if (Text.spanDecimal r).1 = [] then ([], '.' :: r)
    else ('.' :: (Text.spanDecimal r).1, (Text.spanDecimal r).2) := rfl

theorem spanFraction_other {r : List Char} (h : r.head? ≠ some '.') : spanFraction r = ([], r) := by
  unfold spanFraction
  split
  · simp at h
  · rfl

theorem spanExponent_mark {mark : Char} {sign r : List Char} (hm : mark = 'e' ∨ mark = 'E')
    (hs : sign = [] ∨ sign = ['+'] ∨ sign = ['-'])
    (hr : sign = [] → r.head? ≠ some '+' ∧ r.head? ≠ some '-') :
    spanExponent (mark :: (sign ++ r)) =
      if (Text.spanDecimal r).1 = [] then ([], mark :: (sign ++ r))
      else (mark :: (sign ++ (Text.spanDecimal r).1), (Text.spanDecimal r).2) := by
  rcases hs with rfl | rfl | rfl
  · rw [List.nil_append, spanExponent, if_pos hm]
    · rfl
    · rintro cs rfl
      exact (hr rfl).1 rfl
    · rintro cs rfl
      exact (hr rfl).2 rfl
  · exact if_pos hm
  · exact if_pos hm

theorem spanExponent_other {r : List Char} (h : r.head? ≠ some 'e' ∧ r.head? ≠ some 'E') :
    spanExponent r = ([], r) := by
  cases r with
  | nil => rfl
  | cons c r =>
    refine if_neg ?_
    rintro (rfl | rfl)
    · exact h.1 rfl
    · exact h.2 rfl

theorem spanFraction_spec (r : List Char) :
    (∃ fs, Fraction (spanFraction r).1 fs) ∧ (spanFraction r).1 ++ (spanFraction r).2 = r := by
  by_cases hr : r.head? = some '.'
  · obtain ⟨r, rfl⟩ := List.head?_eq_some_iff.1 hr
    rw [spanFraction_point]
    by_cases h : (Text.spanDecimal r).1 = []
    · rw [if_pos h]
      exact ⟨⟨[], .none⟩, rfl⟩
    · rw [if_neg h, List.cons_append, spanDecimal_append]
      exact ⟨⟨_, .point (digits_spanDecimal h)⟩, rfl⟩
  · rw [spanFraction_other hr]
    exact ⟨⟨[], .none⟩, rfl⟩

/-- A mark is followed by a sign or by something that begins with none. -/
theorem exists_sign (r : List Char) : ∃ sign r', r = sign ++ r' ∧
    (sign = [] ∨ sign = ['+'] ∨ sign = ['-']) ∧
      (sign = [] → r'.head? ≠ some '+' ∧ r'.head? ≠ some '-') := by
  cases r with
  | nil => exact ⟨[], [], rfl, .inl rfl, by simp⟩
  | cons c r =>
    by_cases hplus : c = '+'
    · exact ⟨['+'], r, by rw [hplus]; rfl, .inr (.inl rfl), by simp⟩
    by_cases hminus : c = '-'
    · exact ⟨['-'], r, by rw [hminus]; rfl, .inr (.inr rfl), by simp⟩
    · exact ⟨[], c :: r, rfl, .inl rfl, by simp [hplus, hminus]⟩

theorem spanExponent_spec (r : List Char) :
    (∃ e, Exponent (spanExponent r).1 e) ∧ (spanExponent r).1 ++ (spanExponent r).2 = r := by
  by_cases hr : r.head? = some 'e' ∨ r.head? = some 'E'
  · obtain ⟨mark, r, rfl, hm⟩ : ∃ mark r', r = mark :: r' ∧ (mark = 'e' ∨ mark = 'E') := by
      rcases hr with hr | hr
      · obtain ⟨r, rfl⟩ := List.head?_eq_some_iff.1 hr
        exact ⟨_, r, rfl, .inl rfl⟩
      · obtain ⟨r, rfl⟩ := List.head?_eq_some_iff.1 hr
        exact ⟨_, r, rfl, .inr rfl⟩
    obtain ⟨sign, r, rfl, hs, hsign⟩ := exists_sign r
    rw [spanExponent_mark hm hs hsign]
    by_cases h : (Text.spanDecimal r).1 = []
    · rw [if_pos h]
      exact ⟨⟨0, .none⟩, rfl⟩
    · rw [if_neg h, List.cons_append, List.append_assoc, spanDecimal_append]
      exact ⟨⟨_, .mark hm hs (digits_spanDecimal h)⟩, rfl⟩
  · rw [spanExponent_other (not_or.1 hr)]
    exact ⟨⟨0, .none⟩, rfl⟩

theorem Digits.append_ne_nil (h : Digits ds) (r : List Char) : ds ++ r ≠ [] := by
  simp [h.1]

/-- What begins with digits has no sign in front. -/
theorem Digits.head?_ne (h : Digits ds) {c : Char} (hc : Text.isDecimal c = false) (r : List Char) :
    (ds ++ r).head? ≠ some c := by
  obtain ⟨hne, hall⟩ := h
  cases ds with
  | nil => exact absurd rfl hne
  | cons d ds =>
    rw [List.cons_append, List.head?_cons]
    rintro ⟨⟩
    rw [hall c List.mem_cons_self] at hc
    cases hc

theorem noDigitFirst_of_head? {r : List Char} (h : ∀ c ∈ r.head?, Text.isDecimal c = false) :
    Text.NoDigitFirst r := by
  cases r with
  | nil => rfl
  | cons c r => simpa [Text.NoDigitFirst] using h

theorem Exponent.noDigitFirst (h : Exponent x e) {r : List Char} (hr : x = [] → Text.NoDigitFirst r) :
    Text.NoDigitFirst (x ++ r) := by
  cases h with
  | none => exact hr rfl
  | mark hm => rcases hm with rfl | rfl <;> rfl

theorem Exponent.readExponent?_eq (h : Exponent x e) : Number.Decimal.readExponent? x = some e := by
  cases h with
  | none => rfl
  | @mark mark sign ds hm hs h =>
    have hall : ds.all Text.isDecimal = true := List.all_eq_true.2 h.2
    rcases hs with rfl | rfl | rfl
    · have hplus := h.head?_ne (by decide : Text.isDecimal '+' = false) []
      have hminus := h.head?_ne (by decide : Text.isDecimal '-' = false) []
      rw [List.append_nil] at hplus hminus
      rw [List.nil_append, Number.Decimal.readExponent?, if_pos hm]
      · simp only [h.1, hall, ne_eq, not_false_eq_true, and_self, if_true]
        rfl
      all_goals (rintro cs rfl; simp_all)
    · exact (if_pos hm).trans (if_pos ⟨h.1, hall⟩)
    · exact (if_pos hm).trans (if_pos ⟨h.1, hall⟩)

/-- The digits of a number end where its fraction or its exponent begins. -/
theorem spanDecimal_parts (h : Digits ds) (hf : Fraction f fs) (hx : Exponent x e) {r : List Char}
    (hr : f = [] → x = [] → Text.NoDigitFirst r) :
    Text.spanDecimal (ds ++ (f ++ (x ++ r))) = (ds, f ++ (x ++ r)) := by
  refine Text.spanDecimal_of_isDecimal h.2 ?_
  cases hf with
  | none => exact hx.noDigitFirst (hr rfl)
  | point => rfl

theorem readUnsigned?_parts (h : Digits ds) (hf : Fraction f fs) (hx : Exponent x e) :
    Number.Decimal.readUnsigned? (ds ++ (f ++ x)) =
      some ⟨Text.numeral (ds ++ fs), e - fs.length⟩ := by
  have hspan := spanDecimal_parts h hf hx (r := []) fun _ _ => rfl
  rw [List.append_nil] at hspan
  rw [Number.Decimal.readUnsigned?, hspan]
  cases hf with
  | none =>
    have hne : ¬ (ds = [] ∧ ([] : List Char) = []) := fun hn => h.1 hn.1
    have hread := congrArg (Option.map fun exponent =>
      Number.Decimal.mk (Text.numeral (ds ++ [])) (exponent - ([] : List Char).length))
      hx.readExponent?_eq
    cases hx with
    | none => exact (if_neg hne).trans hread
    | mark hm hs hd => rcases hm with rfl | rfl <;> exact (if_neg hne).trans hread
  | point hfs =>
    have hspan' : Text.spanDecimal (fs ++ x) = (fs, x) := by
      have hx' := hx.noDigitFirst (r := []) fun _ => rfl
      rw [List.append_nil] at hx'
      exact Text.spanDecimal_of_isDecimal hfs.2 hx'
    have hne : ¬ (ds = [] ∧ fs = []) := fun hn => h.1 hn.1
    simp only [List.cons_append, hspan', hne, if_false, hx.readExponent?_eq, Option.map_some]

/-- A number with its fraction and exponent denotes a double. -/
theorem readBinary64?_parts (h : Digits ds) (hf : Fraction f fs) (hx : Exponent x e) :
    Number.readBinary64? (ds ++ (f ++ x)) = some
      ((Number.Decimal.mk (Text.numeral (ds ++ fs)) (e - fs.length)).toBinary64 false) := by
  have hplus := h.head?_ne (by decide : Text.isDecimal '+' = false) (f ++ x)
  have hminus := h.head?_ne (by decide : Text.isDecimal '-' = false) (f ++ x)
  have hread : Number.Decimal.read? (ds ++ (f ++ x)) =
      (Number.Decimal.readUnsigned? (ds ++ (f ++ x))).map (false, ·) := by
    unfold Number.Decimal.read?
    split
    · rename_i hcs; rw [hcs] at hminus; exact absurd rfl hminus
    · rename_i hcs; rw [hcs] at hplus; exact absurd rfl hplus
    · rfl
  rw [Number.readBinary64?, hread, readUnsigned?_parts h hf hx]
  rfl

/-- The value of a number, by its parts. -/
def numeralValue (ds f fs x : List Char) (e : Int) : Number.Numeric :=
  if f = [] ∧ x = [] then .int (Text.numeral ds) else realValue ds fs e

theorem numeral_parts (h : Digits ds) (hf : Fraction f fs) (hx : Exponent x e) :
    Numeral (ds ++ (f ++ x)) (numeralValue ds f fs x e) := by
  by_cases hne : f = [] ∧ x = []
  · rw [numeralValue, if_pos hne, hne.1, hne.2, List.append_nil, List.append_nil]
    exact .whole h
  · rw [numeralValue, if_neg hne]
    exact .real h hf hx hne

/-- The parts that are taken off the text are the parts of the number that is read. -/
theorem readNumber?_parts {cs rest : List Char} (h : Digits ds) (hf : Fraction f fs) (hx : Exponent x e)
    (hcs : Text.spanDecimal cs = (ds, f ++ (x ++ rest)))
    (hfraction : spanFraction (f ++ (x ++ rest)) = (f, x ++ rest))
    (hexponent : spanExponent (x ++ rest) = (x, rest)) :
    readNumber? cs = some (.number (numeralValue ds f fs x e), rest) := by
  rw [readNumber?, hcs]
  simp only [h.1, if_false, hfraction, hexponent]
  by_cases hne : f = [] ∧ x = []
  · rw [if_pos hne, numeralValue, if_pos hne]
  · rw [if_neg hne, List.append_assoc, readBinary64?_parts h hf hx, numeralValue, if_neg hne]
    rfl

/-- What is read at a digit is a number, as long as its parts go. -/
theorem readNumber?_spec {cs : List Char} (h : (Text.spanDecimal cs).1 ≠ []) :
    ∃ w n, Numeral w n ∧ cs = w ++ (spanExponent (spanFraction (Text.spanDecimal cs).2).2).2 ∧
      readNumber? cs = some (.number n, (spanExponent (spanFraction (Text.spanDecimal cs).2).2).2) := by
  obtain ⟨⟨fs, hf⟩, hfraction⟩ := spanFraction_spec (Text.spanDecimal cs).2
  obtain ⟨⟨e, hx⟩, hexponent⟩ := spanExponent_spec (spanFraction (Text.spanDecimal cs).2).2
  refine ⟨_, _, numeral_parts (digits_spanDecimal h) hf hx, ?_,
    readNumber?_parts (digits_spanDecimal h) hf hx ?_ ?_ ?_⟩
  · rw [List.append_assoc, List.append_assoc, hexponent, hfraction, spanDecimal_append]
  · rw [hexponent, hfraction]
  · rw [hexponent, hfraction]
  · rw [hexponent]

theorem length_spanFraction (r : List Char) : (spanFraction r).2.length ≤ r.length := by
  have h := congrArg List.length (spanFraction_spec r).2
  rw [List.length_append] at h
  omega

theorem length_spanExponent (r : List Char) : (spanExponent r).2.length ≤ r.length := by
  have h := congrArg List.length (spanExponent_spec r).2
  rw [List.length_append] at h
  omega

theorem spanDecimal_ne_nil (h : Digits ds) (r : List Char) : (Text.spanDecimal (ds ++ r)).1 ≠ [] := by
  rw [spanDecimal_run h.2]
  exact h.append_ne_nil _

theorem spanDecimal_digit {c : Char} (hc : Text.isDecimal c = true) (r : List Char) :
    (Text.spanDecimal (c :: r)).1 ≠ [] := by
  have h : Digits [c] := ⟨List.cons_ne_nil c [], List.forall_mem_singleton.2 hc⟩
  exact spanDecimal_ne_nil h r

/-- An exponent is taken at least as far as it goes. -/
theorem Exponent.length_span_le (h : Exponent x e) (r : List Char) :
    (spanExponent (x ++ r)).2.length ≤ r.length := by
  cases h with
  | none => exact length_spanExponent r
  | @mark mark sign ds hm hs h =>
    rw [List.cons_append, List.append_assoc, spanExponent_mark hm hs fun _ =>
      ⟨h.head?_ne (by decide) r, h.head?_ne (by decide) r⟩, if_neg (spanDecimal_ne_nil h r),
      spanDecimal_run h.2]
    exact length_spanDecimal r

/-- A number is read at least as far as it goes. -/
theorem Numeral.length_rest_le {w : List Char} {n : Number.Numeric} (h : Numeral w n) (r : List Char) :
    (spanExponent (spanFraction (Text.spanDecimal (w ++ r)).2).2).2.length ≤ r.length := by
  cases h with
  | whole h =>
    rw [spanDecimal_run h.2]
    exact Nat.le_trans (length_spanExponent _)
      (Nat.le_trans (length_spanFraction _) (length_spanDecimal r))
  | @real ds f fs x e h hf hx hne =>
    have hspan := spanDecimal_parts h hf hx (r := r) fun hf hx => absurd ⟨hf, hx⟩ hne
    rw [List.append_assoc, List.append_assoc, hspan]
    cases hf with
    | none =>
      have hpoint : (x ++ r).head? ≠ some '.' := by
        cases hx with
        | none => exact absurd ⟨rfl, rfl⟩ hne
        | mark hm => rcases hm with rfl | rfl <;> simp
      rw [List.nil_append, spanFraction_other hpoint]
      exact hx.length_span_le r
    | point hfs =>
      rw [List.cons_append, spanFraction_point, if_neg (spanDecimal_ne_nil hfs _)]
      cases hx with
      | none =>
        refine Nat.le_trans (length_spanExponent _) ?_
        rw [List.nil_append, spanDecimal_run hfs.2]
        exact length_spanDecimal r
      | @mark mark sign ds hm hs hd =>
        have hx' := Exponent.mark hm hs hd
        rw [Text.spanDecimal_of_isDecimal hfs.2 (hx'.noDigitFirst nofun)]
        exact hx'.length_span_le r

/-- What cannot prolong a number. -/
def NumberStops (r : List Char) : Prop :=
  ∀ c ∈ r.head?, Text.isDecimal c = false ∧ c ≠ '.' ∧ c ≠ 'e' ∧ c ≠ 'E'

/-- A number that nothing prolongs is read just as far as it goes. -/
theorem Numeral.read_eq {w : List Char} {n : Number.Numeric} (h : Numeral w n) {r : List Char}
    (hr : NumberStops r) : readNumber? (w ++ r) = some (.number n, r) := by
  have hdigit : Text.NoDigitFirst r := noDigitFirst_of_head? fun c hc => (hr c hc).1
  have hpoint : r.head? ≠ some '.' := fun e => (hr _ e).2.1 rfl
  have hmark : r.head? ≠ some 'e' ∧ r.head? ≠ some 'E' :=
    ⟨fun e => (hr _ e).2.2.1 rfl, fun e => (hr _ e).2.2.2 rfl⟩
  -- The parts of the number are the parts that are taken off the text.
  have parts {ds f fs x : List Char} {e : Int} (h : Digits ds) (hf : Fraction f fs) (hx : Exponent x e) :
      readNumber? (ds ++ (f ++ (x ++ r))) = some (.number (numeralValue ds f fs x e), r) := by
    have hexponent : spanExponent (x ++ r) = (x, r) := by
      cases hx with
      | none => exact spanExponent_other hmark
      | @mark mark sign ds hm hs h =>
        rw [List.cons_append, List.append_assoc, spanExponent_mark hm hs fun _ =>
          ⟨h.head?_ne (by decide) r, h.head?_ne (by decide) r⟩,
          Text.spanDecimal_of_isDecimal h.2 hdigit, if_neg h.1]
    have hfraction : spanFraction (f ++ (x ++ r)) = (f, x ++ r) := by
      cases hf with
      | none =>
        refine spanFraction_other ?_
        cases hx with
        | none => exact hpoint
        | mark hm => rcases hm with rfl | rfl <;> simp
      | point hfs =>
        rw [List.cons_append, spanFraction_point,
          Text.spanDecimal_of_isDecimal hfs.2 (hx.noDigitFirst fun _ => hdigit), if_neg hfs.1]
    exact readNumber?_parts h hf hx (spanDecimal_parts h hf hx fun _ _ => hdigit) hfraction hexponent
  cases h with
  | whole h => exact parts h .none .none
  | real h hf hx hne =>
    have hparts := parts h hf hx
    rw [numeralValue, if_neg hne] at hparts
    rwa [List.append_assoc, List.append_assoc]

end

/-! ## Texts -/

section
variable {cs s rest body : List Char}

@[simp] theorem doubled_nil : doubled [] = [] := rfl

@[simp] theorem doubled_apostrophe (s : List Char) : doubled ('\'' :: s) = '\'' :: '\'' :: doubled s := rfl

theorem doubled_cons {c : Char} (hc : c ≠ '\'') (s : List Char) : doubled (c :: s) = c :: doubled s := by
  rw [doubled, List.flatMap_cons, if_neg hc]
  rfl

theorem of_readApostrophed? (h : readApostrophed? cs = some (s, rest)) :
    cs = doubled s ++ '\'' :: rest := by
  fun_induction readApostrophed? cs generalizing s rest with
  | case1 => cases h
  | case2 cs s' rest' hread ih =>
    obtain ⟨rfl, rfl⟩ := Prod.mk.inj (Option.some.inj h)
    rw [ih hread, doubled_apostrophe]
    rfl
  | case3 cs hread ih =>
    obtain ⟨rfl, rfl⟩ := Prod.mk.inj (Option.some.inj h)
    rfl
  | case4 cs hne =>
    obtain ⟨rfl, rfl⟩ := Prod.mk.inj (Option.some.inj h)
    rfl
  | case5 c cs hpair hc ih =>
    obtain ⟨⟨s', rest'⟩, hread, e⟩ := Option.map_eq_some_iff.1 h
    obtain ⟨rfl, rfl⟩ := Prod.mk.inj e
    rw [doubled_cons fun e => hc e, ih hread]
    rfl

/-- A text in apostrophes is read at least to its end, and just to it when no apostrophe follows. -/
theorem readApostrophed?_doubled (s r : List Char) :
    ∃ s' rest, readApostrophed? (doubled s ++ '\'' :: r) = some (s', rest) ∧ rest.length ≤ r.length ∧
      (r.head? ≠ some '\'' → s' = s ∧ rest = r) := by
  induction s with
  | nil =>
    cases r with
    | nil => exact ⟨[], [], rfl, Nat.le_refl _, fun _ => ⟨rfl, rfl⟩⟩
    | cons c r =>
      by_cases hc : c = '\''
      · subst hc
        cases hread : readApostrophed? r with
        | none =>
          exact ⟨[], '\'' :: r, by rw [doubled_nil, List.nil_append, readApostrophed?, hread],
            Nat.le_refl _, fun hr => absurd rfl hr⟩
        | some p =>
          have hr := congrArg List.length (of_readApostrophed? hread)
          rw [List.length_append, List.length_cons] at hr
          exact ⟨'\'' :: p.1, p.2, by rw [doubled_nil, List.nil_append, readApostrophed?, hread],
            by rw [List.length_cons]; omega, fun hr => absurd rfl hr⟩
      · refine ⟨[], c :: r, ?_, Nat.le_refl _, fun _ => ⟨rfl, rfl⟩⟩
        rw [doubled_nil, List.nil_append, readApostrophed?]
        rintro cs ⟨⟩
        exact hc rfl
  | cons c s ih =>
    obtain ⟨s', rest, hread, hlen, hexact⟩ := ih
    by_cases hc : c = '\''
    · subst hc
      refine ⟨'\'' :: s', rest, ?_, hlen, fun hr => ?_⟩
      · rw [doubled_apostrophe, List.cons_append, List.cons_append, readApostrophed?, hread]
      · obtain ⟨rfl, rfl⟩ := hexact hr
        exact ⟨rfl, rfl⟩
    · refine ⟨c :: s', rest, ?_, hlen, fun hr => ?_⟩
      · rw [doubled_cons hc, List.cons_append, readApostrophed?, hread]
        · rfl
        · rintro cs rfl
          exact absurd rfl hc
        · exact hc
      · obtain ⟨rfl, rfl⟩ := hexact hr
        exact ⟨rfl, rfl⟩

theorem of_readQuoted? (h : readQuoted? cs = some (body, rest)) :
    Quotable body ∧ cs = body ++ '"' :: rest := by
  fun_induction readQuoted? cs generalizing body rest with
  | case1 => cases h
  | case2 cs =>
    obtain ⟨rfl, rfl⟩ := Prod.mk.inj (Option.some.inj h)
    exact ⟨.nil, rfl⟩
  | case3 cs => cases h
  | case4 c cs hc ih =>
    obtain ⟨⟨body', rest'⟩, hread, e⟩ := Option.map_eq_some_iff.1 h
    obtain ⟨rfl, rfl⟩ := Prod.mk.inj e
    obtain ⟨hbody, rfl⟩ := ih hread
    exact ⟨.escape hc hbody, rfl⟩
  | case5 => cases h
  | case6 c cs hquote hescape hlast ih =>
    obtain ⟨⟨body', rest'⟩, hread, e⟩ := Option.map_eq_some_iff.1 h
    obtain ⟨rfl, rfl⟩ := Prod.mk.inj e
    obtain ⟨hbody, rfl⟩ := ih hread
    have hbackslash : c ≠ '\\' := by
      intro e
      cases hcs : body' ++ '"' :: rest' with
      | nil => exact hlast e hcs
      | cons d ds => exact hescape d ds e hcs
    exact ⟨.plain ⟨hquote, hbackslash⟩ hbody, rfl⟩

theorem Quotable.read_eq (h : Quotable body) (r : List Char) :
    readQuoted? (body ++ '"' :: r) = some (body, r) := by
  induction h with
  | nil => rfl
  | plain hc h ih =>
    rw [List.cons_append, readQuoted?, ih]
    · rfl
    · exact hc.1
    · exact fun _ _ e => absurd e hc.2
    · exact fun e => absurd e hc.2
  | escape hc h ih => rw [List.cons_append, List.cons_append, readQuoted?, if_neg hc, ih]; rfl

end

/-! ## Symbols -/

section
variable {cs w r rest : List Char} {t : Token}

theorem mem_symbols_iff : (w, t) ∈ symbols ↔ t.symbol? = some w := by
  constructor
  · intro h
    have hall : (symbols.all fun p => p.2.symbol? = some p.1) = true := by decide
    simpa using List.all_eq_true.1 hall _ h
  · intro h
    cases t with
    | mark m => obtain rfl := Option.some.inj h; cases m <;> decide
    | binary op => obtain rfl := Option.some.inj h; cases op <;> decide
    | logical op => obtain rfl := Option.some.inj h; cases op <;> decide
    | number | text | name => cases h
/-- What is found first among spellings none of which begins a later one is the longest one there. -/
theorem findSome?_longest {l : List (List Char × Token)}
    (hl : l.Pairwise fun a b => ¬ (a.1 <+: b.1 ∧ a.1.length < b.1.length)) (h : (w, t) ∈ l) :
    ∃ w' t' rest, (l.findSome? fun p => (Text.dropPrefix? p.1 (w ++ r)).map fun rest => (p.2, rest)) =
      some (t', rest) ∧ (w', t') ∈ l ∧ w ++ r = w' ++ rest ∧ w.length ≤ w'.length := by
  induction l with
  | nil => cases h
  | cons p l ih =>
    obtain ⟨hp, hl⟩ := List.pairwise_cons.1 hl
    cases hread : Text.dropPrefix? p.1 (w ++ r) with
    | some rest =>
      have e := Text.dropPrefix?_eq_some.1 hread
      refine ⟨p.1, p.2, rest, by rw [List.findSome?_cons, hread]; rfl, List.mem_cons_self, e, ?_⟩
      rcases List.mem_cons.1 h with h | h
      · subst h
        exact Nat.le_refl _
      · refine Nat.le_of_not_lt fun hlt => hp _ h ⟨?_, hlt⟩
        exact List.prefix_of_prefix_length_le ⟨rest, e.symm⟩ (List.prefix_append w r) (Nat.le_of_lt hlt)
    | none =>
      have hne : (w, t) ≠ p := by
        rintro rfl
        rw [Text.dropPrefix?_eq_some.2 rfl] at hread
        cases hread
      obtain ⟨w', t', rest, hfound, hmem, e, hlen⟩ := ih hl (List.mem_of_ne_of_mem hne h)
      exact ⟨w', t', rest, by rw [List.findSome?_cons, hread]; exact hfound,
        List.mem_cons_of_mem _ hmem, e, hlen⟩

theorem readSymbol?_longest (h : (w, t) ∈ symbols) (r : List Char) :
    ∃ w' t' rest, readSymbol? (w ++ r) = some (t', rest) ∧ (w', t') ∈ symbols ∧ w ++ r = w' ++ rest ∧
      w.length ≤ w'.length :=
  findSome?_longest (by decide) h

theorem of_readSymbol? (h : readSymbol? cs = some (t, rest)) :
    ∃ w, (w, t) ∈ symbols ∧ cs = w ++ rest := by
  obtain ⟨⟨w, t'⟩, hmem, h⟩ := List.exists_of_findSome?_eq_some h
  obtain ⟨rest', hread, e⟩ := Option.map_eq_some_iff.1 h
  obtain ⟨rfl, rfl⟩ := Prod.mk.inj e
  exact ⟨w, hmem, Text.dropPrefix?_eq_some.1 hread⟩

/-- The characters that begin no name, no number and no text, and that separate no tokens. -/
def isSymbolic (c : Char) : Bool :=
  !Text.isNameStart c && !Text.isDecimal c && !isSeparator c && !(c = '\'' || c = '"')

theorem isSymbolic_of_mem (h : (w, t) ∈ symbols) : w ≠ [] ∧ ∀ c ∈ w, isSymbolic c = true := by
  have hall : (symbols.all fun p => !p.1.isEmpty && p.1.all isSymbolic) = true := by decide
  have hw := List.all_eq_true.1 hall _ h
  simpa using hw

theorem symbol_injective {t' : Token} (h : (w, t) ∈ symbols) (h' : (w, t') ∈ symbols) : t = t' := by
  have hnodup : (symbols.map Prod.fst).Nodup := by decide
  exact (Prod.mk.inj (List.inj_on_of_nodup_map hnodup h h' rfl)).2

/-- A symbol that another one does not prolong is read just as far as it goes. -/
theorem readSymbol?_eq (h : (w, t) ∈ symbols) (hr : ∀ c ∈ r.head?, isSymbolic c = false) :
    readSymbol? (w ++ r) = some (t, r) := by
  obtain ⟨w', t', rest, hread, hmem, e, hlen⟩ := readSymbol?_longest h r
  obtain ⟨u, rfl⟩ : w <+: w' :=
    List.prefix_of_prefix_length_le (List.prefix_append w r) ⟨rest, e.symm⟩ hlen
  rw [List.append_assoc] at e
  obtain rfl := List.append_cancel_left e
  cases u with
  | nil =>
    rw [List.append_nil] at hmem
    rw [hread, symbol_injective h hmem]
    rfl
  | cons c u =>
    have hc := (isSymbolic_of_mem hmem).2 c (by simp)
    rw [hr c rfl] at hc
    cases hc

end

/-! ## The token at the beginning of a text -/

section
variable {c : Char} {cs w r rest : List Char} {t : Token}

theorem read?_name (hc : Text.isNameStart c = true) (cs : List Char) :
    read? (c :: cs) = some (.name (String.ofList ((c :: cs).takeWhile Text.isNameChar)),
      (c :: cs).dropWhile Text.isNameChar) := by
  rw [read?, if_pos hc]
  · rintro rfl; cases hc
  · rintro rfl; cases hc

theorem toNat_of_isNameStart (h : Text.isNameStart c = true) : 65 ≤ c.toNat ∧ c.toNat < 128 := by
  simp only [Text.isNameStart, Char.isAlpha, Char.isUpper, Char.isLower, Bool.or_eq_true,
    Bool.and_eq_true, decide_eq_true_eq, beq_iff_eq, ge_iff_le, UInt32.le_iff_toNat_le] at h
  rcases h with (⟨h, h'⟩ | ⟨h, h'⟩) | rfl
  · simp at h h'
    omega
  · simp at h h'
    omega
  · decide

/-- A digit begins no name. -/
theorem isNameStart_of_isDecimal (hc : Text.isDecimal c = true) : Text.isNameStart c = false := by
  rw [← Bool.not_eq_true]
  intro hname
  have hrange := toNat_of_isNameStart hname
  rw [Text.isDecimal_of_toNat_lt hrange.2, Text.isPlainDigit_iff] at hc
  omega

theorem isNameChar_of_isNameStart (h : Text.isNameStart c = true) : Text.isNameChar c = true := by
  simp only [Text.isNameStart, Text.isNameChar, Char.isAlphanum, Bool.or_eq_true] at h ⊢
  exact h.imp_left .inl

theorem read?_number (hc : Text.isDecimal c = true) (cs : List Char) :
    read? (c :: cs) = readNumber? (c :: cs) := by
  rw [read?, if_neg (by rw [isNameStart_of_isDecimal hc]; decide), if_pos hc]
  · rintro rfl; revert hc; decide
  · rintro rfl; revert hc; decide

theorem read?_symbol (hc : isSymbolic c = true) (cs : List Char) :
    read? (c :: cs) = readSymbol? (c :: cs) := by
  simp only [isSymbolic, Bool.and_eq_true, Bool.not_eq_true', Bool.or_eq_false_iff,
    decide_eq_false_iff_not] at hc
  obtain ⟨⟨⟨hname, hdecimal⟩, -⟩, hapostrophe, hquote⟩ := hc
  rw [read?, if_neg (by rw [hname]; decide), if_neg (by rw [hdecimal]; decide)]
  · exact hapostrophe
  · exact hquote

/-- What is read is spelled at the beginning of the text. -/
theorem of_read? (h : read? cs = some (t, rest)) : ∃ w, cs = w ++ rest ∧ Spells w t := by
  unfold read? at h
  split at h
  · rename_i cs
    obtain ⟨⟨s, rest'⟩, hread, e⟩ := Option.map_eq_some_iff.1 h
    obtain ⟨rfl, rfl⟩ := Prod.mk.inj e
    exact ⟨_, by rw [of_readApostrophed? hread]; simp, .apostrophed s⟩
  · rename_i cs
    obtain ⟨⟨body, rest'⟩, hread, e⟩ := Option.map_eq_some_iff.1 h
    obtain ⟨rfl, rfl⟩ := Prod.mk.inj e
    obtain ⟨hbody, rfl⟩ := of_readQuoted? hread
    exact ⟨_, by simp, .quoted hbody⟩
  · rename_i c cs _ _
    by_cases hname : Text.isNameStart c = true
    · rw [if_pos hname] at h
      obtain ⟨rfl, rfl⟩ := Prod.mk.inj (Option.some.inj h)
      refine ⟨_, List.takeWhile_append_dropWhile.symm, ?_⟩
      rw [List.takeWhile_cons_of_pos (isNameChar_of_isNameStart hname)]
      exact .name hname (List.all_eq_true.1 List.all_takeWhile)
    rw [if_neg hname] at h
    by_cases hdecimal : Text.isDecimal c = true
    · rw [if_pos hdecimal] at h
      obtain ⟨w, n, hw, e, hread⟩ := readNumber?_spec (spanDecimal_digit hdecimal cs)
      rw [hread] at h
      obtain ⟨rfl, rfl⟩ := Prod.mk.inj (Option.some.inj h)
      exact ⟨w, e, .number hw⟩
    · rw [if_neg hdecimal] at h
      obtain ⟨w, hmem, e⟩ := of_readSymbol? h
      exact ⟨w, e, .symbol (mem_symbols_iff.1 hmem)⟩
  · cases h

theorem Numeral.exists_cons {n : Number.Numeric} (h : Numeral w n) :
    ∃ c cs, w = c :: cs ∧ Text.isDecimal c = true := by
  have digits {ds : List Char} (h : Digits ds) (r : List Char) :
      ∃ c cs, ds ++ r = c :: cs ∧ Text.isDecimal c = true := by
    cases ds with
    | nil => exact absurd rfl h.1
    | cons c ds => exact ⟨c, ds ++ r, rfl, h.2 c List.mem_cons_self⟩
  cases h with
  | whole h => simpa using digits h []
  | real h => exact digits h _

theorem Spells.ne_nil (h : Spells w t) : w ≠ [] := by
  cases h with
  | name | apostrophed | quoted => exact List.cons_ne_nil _ _
  | number h =>
    obtain ⟨c, cs, rfl, -⟩ := h.exists_cons
    exact List.cons_ne_nil c cs
  | symbol h => exact (isSymbolic_of_mem (mem_symbols_iff.2 h)).1

/-- At a spelling of a token something is read, at least to the end of the spelling. -/
theorem Spells.read_longest (h : Spells w t) (r : List Char) :
    ∃ t' rest, read? (w ++ r) = some (t', rest) ∧ rest.length ≤ r.length := by
  cases h with
  | @name c cs hc hcs =>
    refine ⟨_, _, read?_name hc (cs ++ r), ?_⟩
    rw [List.dropWhile_cons_of_pos (isNameChar_of_isNameStart hc), List.dropWhile_append_of_pos hcs]
    exact (List.dropWhile_sublist _).length_le
  | number h =>
    obtain ⟨c, cs, rfl, hc⟩ := h.exists_cons
    obtain ⟨w, n, -, -, hread⟩ := readNumber?_spec (spanDecimal_digit hc (cs ++ r))
    exact ⟨_, _, (read?_number hc _).trans hread, h.length_rest_le r⟩
  | apostrophed s =>
    obtain ⟨s', rest, hread, hlen, -⟩ := readApostrophed?_doubled s r
    refine ⟨.text (String.ofList s'), rest, ?_, hlen⟩
    rw [List.cons_append, List.append_assoc, List.singleton_append, read?, hread]
    rfl
  | @quoted body h =>
    refine ⟨.text (String.ofList (unescape body)), r, ?_, Nat.le_refl _⟩
    rw [List.cons_append, List.append_assoc, List.singleton_append, read?, h.read_eq]
    rfl
  | symbol h =>
    have hmem := mem_symbols_iff.2 h
    obtain ⟨w', t', rest, hread, -, e, hlen⟩ := readSymbol?_longest hmem r
    obtain ⟨hne, hall⟩ := isSymbolic_of_mem hmem
    cases w with
    | nil => exact absurd rfl hne
    | cons c w =>
      refine ⟨t', rest, (read?_symbol (hall c List.mem_cons_self) _).trans hread, ?_⟩
      have hlen' := congrArg List.length e
      rw [List.length_append, List.length_append] at hlen'
      omega

/-- What cannot prolong a token. -/
def Parted : Token → List Char → Prop
  | .name _, r => ∀ c ∈ r.head?, Text.isNameChar c = false
  | .number _, r => NumberStops r
  | .text _, r => r.head? ≠ some '\''
  | _, r => ∀ c ∈ r.head?, isSymbolic c = false

/-- A spelling of a token is read as that token where nothing prolongs it. -/
theorem Spells.read_parted (h : Spells w t) (hr : Parted t r) : read? (w ++ r) = some (t, r) := by
  cases h with
  | @name c cs hc hcs =>
    have htake : r.takeWhile Text.isNameChar = [] ∧ r.dropWhile Text.isNameChar = r := by
      cases r with
      | nil => exact ⟨rfl, rfl⟩
      | cons d r => simp [hr d rfl]
    have hall : ∀ d ∈ c :: cs, Text.isNameChar d = true :=
      List.forall_mem_cons.2 ⟨isNameChar_of_isNameStart hc, hcs⟩
    rw [List.cons_append, read?_name hc, ← List.cons_append, List.takeWhile_append_of_pos hall,
      List.dropWhile_append_of_pos hall, htake.1, htake.2, List.append_nil]
  | number h =>
    obtain ⟨c, cs, rfl, hc⟩ := h.exists_cons
    rw [List.cons_append, read?_number hc, ← List.cons_append]
    exact h.read_eq hr
  | apostrophed s =>
    obtain ⟨s', rest, hread, -, hexact⟩ := readApostrophed?_doubled s r
    obtain ⟨rfl, rfl⟩ := hexact hr
    rw [List.cons_append, List.append_assoc, List.singleton_append, read?, hread]
    rfl
  | @quoted body h =>
    rw [List.cons_append, List.append_assoc, List.singleton_append, read?, h.read_eq]
    rfl
  | symbol h =>
    have hmem := mem_symbols_iff.2 h
    have hplain : ∀ c ∈ r.head?, isSymbolic c = false := by
      cases t with
      | mark | binary | logical => exact hr
      | name | number | text => cases h
    obtain ⟨hne, hall⟩ := isSymbolic_of_mem hmem
    cases w with
    | nil => exact absurd rfl hne
    | cons c w =>
      rw [List.cons_append, read?_symbol (hall c List.mem_cons_self), ← List.cons_append]
      exact readSymbol?_eq hmem hplain

theorem isSeparator_iff : isSeparator c = true ↔
    c = ' ' ∨ c = '\t' ∨ c = '\x0c' ∨ c = '\r' ∨ c = '\n' := by
  simp [isSeparator, or_assoc]

/-- A separator or the end of the text. -/
def Separated (r : List Char) : Prop := ∀ c ∈ r.head?, isSeparator c = true

theorem Separated.parted (hr : Separated r) (t : Token) : Parted t r := by
  have plain : ∀ c ∈ r.head?, Text.isNameChar c = false ∧ isSymbolic c = false ∧
      Text.isDecimal c = false ∧ c ≠ '.' ∧ c ≠ 'e' ∧ c ≠ 'E' ∧ c ≠ '\'' := by
    intro c hc
    rcases isSeparator_iff.1 (hr c hc) with rfl | rfl | rfl | rfl | rfl <;> decide
  cases t with
  | name => exact fun c hc => (plain c hc).1
  | number =>
    intro c hc
    obtain ⟨-, -, hdecimal, hpoint, he, hE, -⟩ := plain c hc
    exact ⟨hdecimal, hpoint, he, hE⟩
  | text =>
    intro hc
    exact (plain _ hc).2.2.2.2.2.2 rfl
  | mark | binary | logical => exact fun c hc => (plain c hc).2.1

/-- Before a separator or the end, a spelling of a token is read as that token. -/
theorem Spells.read_eq (h : Spells w t) (hr : Separated r) : read? (w ++ r) = some (t, r) :=
  h.read_parted (hr.parted t)

end

end Token

end PipelineTemplate
