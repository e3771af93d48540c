import PipelineTemplate.Proofs.Number.Numeral
import PipelineTemplate.Proofs.Yaml.Numeral
import PipelineTemplate.Value.Json
import PipelineTemplate.Value.JsonReading

/-!
# Texts and numbers in JSON text

A text between quotation marks is read back character by character, and a number up to the first
character that cannot belong to it.
-/

namespace PipelineTemplate.JsonText

/-! ## Texts -/

/-- The characters below the blank have four digits that are read back. -/
theorem code?_hexPadded {n : Nat} (h : n < 0x20) :
    ∃ a b c d, Text.hexPadded 4 n = [a, b, c, d] ∧ code? [a, b, c, d] = some n := by
  have hall : ∀ n < 0x20, (Text.hexPadded 4 n).length = 4 ∧ code? (Text.hexPadded 4 n) = some n := by
    decide +kernel
  obtain ⟨hlength, hcode⟩ := hall n h
  match hp : Text.hexPadded 4 n, hlength with
  | [a, b, c, d], _ => exact ⟨a, b, c, d, rfl, hp ▸ hcode⟩

/-- An escaped character is read as one number. -/
theorem codes?_jsonChar (c : Char) (rest : List Char) : codes? (Value.jsonChar c ++ rest) =
    (codes? rest).map fun p => (c.toNat :: p.1, p.2) := by
  have hletter (letter char : Char) (hu : letter ≠ 'u') (he : escape? letter = some char) :
      codes? ('\\' :: letter :: rest) = (codes? rest).map fun p => (char.toNat :: p.1, p.2) := by
    rw [codes?, he]
    · cases codes? rest <;> rfl
    · intro a b c d more hl _
      exact hu hl
  unfold Value.jsonChar
  split
  · next h => exact h ▸ hletter '"' '"' (by decide) rfl
  split
  · next h => exact h ▸ hletter '\\' '\\' (by decide) rfl
  split
  · next h => exact h ▸ hletter 'n' '\n' (by decide) rfl
  split
  · next h => exact h ▸ hletter 'r' '\r' (by decide) rfl
  split
  · next h => exact h ▸ hletter 't' '\t' (by decide) rfl
  split
  · next h => exact h ▸ hletter 'b' '\x08' (by decide) rfl
  split
  · next h => exact h ▸ hletter 'f' '\x0c' (by decide) rfl
  split
  · next h =>
    obtain ⟨x, y, z, w, hp, hcode⟩ := code?_hexPadded h
    rw [hp, List.cons_append, List.cons_append, List.cons_append, List.cons_append, List.cons_append,
      List.cons_append, List.nil_append, codes?, hcode]
    cases codes? rest <;> rfl
  · next hquote hslash _ _ _ _ _ hplain =>
    have hlow : ¬(decide (c = '\\') || decide (c < ' ')) = true := by
      rw [Bool.or_eq_true, decide_eq_true_iff, decide_eq_true_iff, not_or]
      exact ⟨hslash, hplain⟩
    rw [List.singleton_append, codes?, if_neg hlow]
    · cases codes? rest <;> rfl
    · exact hquote
    · intro a b c d more hc _
      exact hslash hc
    · intro letter more hc _
      exact hslash hc

theorem codes?_text (cs rest : List Char) :
    codes? (cs.flatMap Value.jsonChar ++ '"' :: rest) = some (cs.map Char.toNat, rest) := by
  induction cs with
  | nil => rfl
  | cons c cs ih => rw [List.flatMap_cons, List.append_assoc, codes?_jsonChar, ih, Option.map_some, List.map_cons]

/-- No character is half of another one. -/
theorem characters_toNat (cs : List Char) : characters (cs.map Char.toNat) = cs := by
  induction cs with
  | nil => rfl
  | cons c cs ih =>
    cases cs with
    | nil => simp [characters]
    | cons d cs =>
      have hwhole : ¬(0xD800 ≤ c.toNat ∧ c.toNat < 0xDC00 ∧ 0xDC00 ≤ d.toNat ∧ d.toNat < 0xE000) := by
        have hc : c.toNat < 0xD800 ∨ 0xDFFF < c.toNat ∧ c.toNat < 0x110000 := c.valid
        omega
      rw [List.map_cons] at ih
      rw [List.map_cons, List.map_cons, characters, if_neg hwhole, ih, Char.ofNat_toNat]

theorem text?_jsonString (s : String) (rest : List Char) :
    text? (s.toList.flatMap Value.jsonChar ++ '"' :: rest) = some (s, rest) := by
  rw [text?, codes?_text, Option.map_some]
  simp only [characters_toNat, String.ofList_toList]

theorem jsonString_toList (s : String) :
    (Value.jsonString s).toList = '"' :: (s.toList.flatMap Value.jsonChar ++ ['"']) := by
  rw [Value.jsonString, String.toList_ofList, List.cons_append]

/-! ## Numbers -/

/-- The text goes on with nothing that a number could take up. -/
def Ended (rest : List Char) : Prop :=
  rest.head?.all fun c => !Text.isPlainDigit c && c ≠ '.' && c ≠ 'e' && c ≠ 'E'

/-- The front of a number: a zero on its own or digits that do not begin with one. -/
structure WholePart (whole : List Char) : Prop where
  digits : whole.all Text.isPlainDigit = true
  nonempty : whole ≠ []
  leading : whole = ['0'] ∨ whole.head? ≠ some '0'

/-- A point with digits behind it, or nothing. -/
inductive FractionPart : List Char → Prop where
  | none : FractionPart []
  | point {ds : List Char} (digits : ds.all Text.isPlainDigit = true) (nonempty : ds ≠ []) :
      FractionPart ('.' :: ds)

theorem digits_append {ds rest : List Char} (hd : ds.all Text.isPlainDigit = true)
    (hr : rest.head?.all fun c => !Text.isPlainDigit c) : digits (ds ++ rest) = ds := by
  rw [digits, List.takeWhile_append_of_pos (List.all_eq_true.1 hd)]
  cases rest with
  | nil => rw [List.takeWhile_nil, List.append_nil]
  | cons c rest =>
    have hc : Text.isPlainDigit c = false := by simpa using hr
    rw [List.takeWhile_cons_of_neg (by simp [hc]), List.append_nil]

/-- What the next character of a text satisfies, if there is one, may be weakened. -/
theorem head_weaken {p q : Char → Bool} {cs : List Char} (h : cs.head?.all p = true)
    (hpq : ∀ c, p c = true → q c = true) : cs.head?.all q = true := by
  cases cs with
  | nil => rfl
  | cons c cs => exact hpq c h

/-- Neither digits nor a fraction go on. -/
def NoFraction (cs : List Char) : Prop := cs.head?.all fun c => !Text.isPlainDigit c && c ≠ '.'

theorem NoFraction.noDigit {cs : List Char} (h : NoFraction cs) : cs.head?.all fun c => !Text.isPlainDigit c :=
  head_weaken h fun _ hc => (Bool.and_eq_true_iff.1 hc).1

namespace Ended

variable {rest : List Char}

theorem noFraction (h : Ended rest) : NoFraction rest :=
  head_weaken h fun _ hc => (Bool.and_eq_true_iff.1 (Bool.and_eq_true_iff.1 hc).1).1

theorem behind {tail : List Char} {exponent : Int} (h : Ended rest) (ht : Number.ExponentText tail exponent) :
    NoFraction (tail ++ rest) := by
  cases ht with
  | none => exact h.noFraction
  | minus | plus => rfl

end Ended

/-- The length of a fraction at the front of a text. -/
def fractionLength (cs : List Char) : Nat :=
  match cs with
  | '.' :: rest => if digits rest = [] then 0 else (digits rest).length + 1
  | _ => 0

/-- The length of an exponent at the front of a text. -/
def exponentLength (cs : List Char) : Nat :=
  match cs with
  | mark :: rest =>
    let sign := if rest.head? = some '-' ∨ rest.head? = some '+' then 1 else 0
    let power := digits (rest.drop sign)
    if (mark = 'e' ∨ mark = 'E') ∧ power ≠ [] then power.length + sign + 1 else 0
  | [] => 0

theorem numberLength?_parts (cs : List Char) : numberLength? cs =
    let sign := if cs.head? = some '-' then 1 else 0
    let whole := digits (cs.drop sign)
    if whole = [] then none
    else
      let whole := if whole.head? = some '0' then 1 else whole.length
      let fraction := fractionLength (cs.drop (sign + whole))
      let exponent := exponentLength (cs.drop (sign + whole + fraction))
      some (sign + whole + fraction + exponent, decide (0 < fraction + exponent)) := rfl

theorem fractionLength_append {fraction after : List Char} (hf : FractionPart fraction)
    (ha : NoFraction after) : fractionLength (fraction ++ after) = fraction.length := by
  cases hf with
  | none =>
    rw [List.nil_append]
    unfold fractionLength
    split
    · simp [NoFraction] at ha
    · rfl
  | @point ds hd hn =>
    have hds : digits (ds ++ after) = ds := digits_append hd ha.noDigit
    simp only [fractionLength, List.cons_append, hds, if_neg hn, List.length_cons]

theorem exponentLength_append {tail rest : List Char} {exponent : Int} (ht : Number.ExponentText tail exponent)
    (hr : Ended rest) :
    exponentLength (tail ++ rest) = tail.length := by
  cases ht with
  | none =>
    rw [List.nil_append]
    cases rest with
    | nil => rfl
    | cons c rest =>
      have hc : ¬(c = 'e' ∨ c = 'E') := by
        simp only [Ended, List.head?_cons, Option.all_some, Bool.and_eq_true, decide_eq_true_iff] at hr
        exact not_or.2 ⟨hr.1.2, hr.2⟩
      simp only [exponentLength, hc, false_and, if_false, List.length_nil]
  | minus hd hn | plus hd hn => simp [exponentLength, digits_append hd hr.noFraction.noDigit, hn]

theorem head?_ne_minus {whole : List Char} (hw : WholePart whole) (after : List Char) :
    (whole ++ after).head? ≠ some '-' := by
  obtain ⟨d, ds, rfl⟩ := List.exists_cons_of_ne_nil hw.nonempty
  have hd := hw.digits
  rw [List.all_cons, Bool.and_eq_true] at hd
  intro h
  rw [List.cons_append, List.head?_cons] at h
  rw [Option.some.inj h] at hd
  exact absurd hd.1 (by decide)

/-- A number is measured part by part. -/
theorem numberLength?_eq (negative : Bool) {whole fraction tail rest : List Char} {exponent : Int}
    (hw : WholePart whole) (hf : FractionPart fraction) (ht : Number.ExponentText tail exponent) (hr : Ended rest) :
    numberLength? ((if negative then ['-'] else []) ++ (whole ++ (fraction ++ (tail ++ rest)))) =
      some (((if negative then ['-'] else []) ++ (whole ++ (fraction ++ tail))).length,
        decide (0 < fraction.length + tail.length)) := by
  have hbehind := hr.behind ht
  have hnext : (fraction ++ (tail ++ rest)).head?.all fun c => !Text.isPlainDigit c := by
    cases hf with
    | point => rfl
    | none => exact hbehind.noDigit
  have hdigits : digits (whole ++ (fraction ++ (tail ++ rest))) = whole := digits_append hw.digits hnext
  have hlength : (if whole.head? = some '0' then 1 else whole.length) = whole.length := by
    split
    · next h =>
      rcases hw.leading with rfl | hl
      · rfl
      · exact absurd h hl
    · rfl
  have hsign : (if ((if negative then ['-'] else []) ++ (whole ++ (fraction ++ (tail ++ rest)))).head? = some '-'
      then 1 else 0) = (if negative then ['-'] else []).length := by
    cases negative with
    | true => rfl
    | false => exact if_neg (head?_ne_minus hw _)
  have hfraction := fractionLength_append hf hbehind
  have hexponent := exponentLength_append ht hr
  rw [numberLength?_parts]
  simp only [hsign, ← List.drop_drop, List.drop_left, hdigits, if_neg hw.nonempty, hlength, hfraction, hexponent]
  simp only [List.length_append, Nat.add_assoc]

/-- A number with a fraction or an exponent is read as the double that its text denotes. -/
theorem number?_double (negative : Bool) {whole fraction tail rest : List Char} {exponent : Int} {x : Number.Binary64}
    (hw : WholePart whole) (hf : FractionPart fraction) (ht : Number.ExponentText tail exponent) (hr : Ended rest)
    (hmark : 0 < fraction.length + tail.length)
    (hx : Number.readBinary64? ((if negative then ['-'] else []) ++ (whole ++ (fraction ++ tail))) = some x) :
    number? ((if negative then ['-'] else []) ++ (whole ++ (fraction ++ tail)) ++ rest) =
      some (.number (.float x), rest) := by
  have hlength := numberLength?_eq negative hw hf ht hr
  simp only [List.append_assoc] at hlength hx ⊢
  rw [number?, hlength]
  have hsplit : (if negative then ['-'] else []) ++ (whole ++ (fraction ++ (tail ++ rest))) =
      ((if negative then ['-'] else []) ++ (whole ++ (fraction ++ tail))) ++ rest := by
    simp only [List.append_assoc]
  simp only [Option.bind_eq_bind, Option.bind_some, decide_eq_true hmark, if_true, hsplit, List.take_left,
    List.drop_left, hx, Option.map_some]
  rfl

/-- Digits alone are read as a whole number. -/
theorem number?_whole (negative : Bool) {whole rest : List Char} (hw : WholePart whole) (hr : Ended rest) :
    number? ((if negative then ['-'] else []) ++ whole ++ rest) =
      some (.number (.int (if negative then -(Text.numeral whole : Int) else Text.numeral whole)), rest) := by
  have hlength := numberLength?_eq negative hw .none .none hr
  have hfront := head?_ne_minus hw []
  have hdigits := @digits_append whole [] hw.digits rfl
  have hdrop : (((if negative then ['-'] else []) ++ whole).dropWhile (· = '-')) = whole := by
    have hwhole : whole.dropWhile (· = '-') = whole := by
      cases whole with
      | nil => rfl
      | cons d ds => exact List.dropWhile_cons_of_neg (by simpa using hfront)
    cases negative with
    | true => exact hwhole
    | false => exact hwhole
  have hhead : (((if negative then ['-'] else []) ++ whole).head? = some '-') ↔ negative = true := by
    cases negative with
    | true => exact iff_of_true rfl rfl
    | false => exact iff_of_false (by simpa using hfront) Bool.false_ne_true
  simp only [List.append_nil, List.nil_append, ← List.append_assoc] at hlength hdigits
  rw [number?, hlength]
  simp only [Option.bind_eq_bind, Option.bind_some, List.length_nil, Nat.lt_irrefl, decide_false, Bool.false_eq_true,
    if_false, List.take_left, List.drop_left, hdrop, hdigits, hhead]
  rfl

/-! ## What stands at the front -/

theorem afterBlanks_cons {c : Char} (h : isBlank c = false) (cs : List Char) : afterBlanks (c :: cs) = c :: cs :=
  List.dropWhile_cons_of_neg (by simp [h])

/-- A value that is neither a text nor bracketed is a word or a number. -/
theorem value?_bare {c : Char} (hc : isBlank c = false) (hopen : c ≠ '"' ∧ c ≠ '[' ∧ c ≠ '\x7b') (bound : Nat)
    (cs : List Char) : value? (bound + 1) (c :: cs) =
      (words.findSome? fun (word, v) => (Text.dropPrefix? word.toList (c :: cs)).map fun rest => (v, rest)).or
        (number? (c :: cs)) := by
  rw [value?, afterBlanks_cons hc]
  split
  · next h => exact absurd (List.cons.inj h).1 hopen.1
  · next h => exact absurd (List.cons.inj h).1 hopen.2.1
  · next h => exact absurd (List.cons.inj h).1 hopen.2.2
  · rfl

/-- The characters at the front of values other than numbers. -/
def fronts : List Char := ['"', '[', '\x7b', ' ', '\t', '\n', '\r', 'n', 't', 'f', 'N', 'I', '-']

theorem ne_of_mem_fronts {c d : Char} (hd : Text.isPlainDigit d = true) (hc : c ∈ fronts) : d ≠ c := by
  have hall : fronts.all fun c => !Text.isPlainDigit c := by decide
  rintro rfl
  have hno := List.all_eq_true.1 hall d hc
  rw [hd] at hno
  cases hno

/-- No word stands at the front of a numeral, and nothing else that is not a number. -/
theorem value?_numeral {cs : List Char} (h : Yaml.IsNumeral cs) (bound : Nat) (rest : List Char) :
    value? (bound + 1) (cs ++ rest) = number? (cs ++ rest) := by
  cases h with
  | @unsigned d cs hd _ =>
    have hdiffer : ∀ c ∈ fronts, d ≠ c := fun c hc => ne_of_mem_fronts hd hc
    simp only [fronts, List.forall_mem_cons] at hdiffer
    obtain ⟨hquote, hlist, hmap, hblank, htab, hline, hreturn, hn, ht, hf, hN, hI, hminus, -⟩ := hdiffer
    rw [List.cons_append, value?_bare (by simp [isBlank, hblank, htab, hline, hreturn]) ⟨hquote, hlist, hmap⟩]
    simp [words, Text.dropPrefix?, hn.symm, ht.symm, hf.symm, hN.symm, hI.symm, hminus.symm]
  | @minus d cs hd _ =>
    have hI : 'I' ≠ d := (ne_of_mem_fronts hd (by decide)).symm
    rw [List.cons_append, List.cons_append, value?_bare (by decide) (by decide)]
    simp [words, Text.dropPrefix?, hI]

/-! ## Words, texts and numbers as values -/

theorem value?_word {word : String} {v : Value}
    (h : (word, v) ∈ [("null", Value.null), ("true", .bool true), ("false", .bool false)]) (bound : Nat)
    (rest : List Char) : value? (bound + 1) (word.toList ++ rest) = some (v, rest) := by
  simp only [List.mem_cons, Prod.mk.injEq, List.not_mem_nil, or_false] at h
  rcases h with ⟨rfl, rfl⟩ | ⟨rfl, rfl⟩ | ⟨rfl, rfl⟩ <;> rfl

theorem value?_text (s : String) (bound : Nat) (rest : List Char) :
    value? (bound + 1) ((Value.jsonString s).toList ++ rest) = some (.text s, rest) := by
  rw [jsonString_toList, List.cons_append, List.append_assoc, value?, afterBlanks_cons (by decide)]
  simp only [List.singleton_append, text?_jsonString, Option.map_some]

theorem wholePart_toDigits (n : Nat) : WholePart (Nat.toDigits 10 n) := by
  refine ⟨Text.all_toDigits n, Nat.toDigits_ne_nil, ?_⟩
  by_cases hn : n = 0
  · subst hn
    exact .inl rfl
  · obtain ⟨d, ds, he, hlow, -⟩ := Yaml.Schema.toDigits_head hn
    refine .inr fun h => ?_
    rw [he, List.head?_cons] at h
    rw [Option.some.inj h] at hlow
    exact absurd hlow (by decide)

theorem value?_int (n : Int) (bound : Nat) {rest : List Char} (hr : Ended rest) :
    value? (bound + 1) ((Text.ofInt n).toList ++ rest) = some (.number (.int n), rest) := by
  have htext : (Text.ofInt n).toList = (if decide (n < 0) then ['-'] else []) ++ Nat.toDigits 10 n.natAbs := by
    rw [Text.ofInt_toList]
    by_cases h : n < 0 <;> simp [h]
  have hsigned : (if decide (n < 0) then -(n.natAbs : Int) else n.natAbs) = n := by
    by_cases h : n < 0
    · rw [if_pos (decide_eq_true h)]
      omega
    · rw [if_neg (by simp [h])]
      omega
  rw [value?_numeral (Yaml.isNumeral_ofInt n), htext, number?_whole _ (wholePart_toDigits _) hr,
    Text.numeral_toDigits, hsigned]

/-- A numeral without zeros in front, unless a point follows a zero that stands alone. -/
def Leading (cs : List Char) : Prop := cs.head? ≠ some '0' ∨ ∃ rest, cs = '0' :: '.' :: rest

theorem leading_digits (layout : Number.Layout) {ds : List Char} (hn : ds ≠ []) (h0 : ds.head? ≠ some '0')
    (e : Int) :
    Leading (layout.digits ds e).toList := by
  obtain ⟨d, ds, rfl⟩ := List.exists_cons_of_ne_nil hn
  unfold Number.Layout.digits
  split
  · split
    · exact .inr ⟨List.replicate (-e - 1).toNat '0' ++ d :: ds, by simp⟩
    · exact .inl (by simpa using h0)
  · refine .inl ?_
    cases ds with
    | nil => cases layout.pointBeforeExponent <;> simpa using h0
    | cons f ds => simpa using h0

theorem leading_render (layout : Number.Layout) (negative : Bool) {m : Nat} {e : Int} (h : Number.OnGrid m e) :
    ∃ cs, Leading cs ∧
      (layout.render (.finite negative m e h)).toList = (if negative then ['-'] else []) ++ cs := by
  have hsign : (if negative then "-" else "").toList = if negative then ['-'] else [] := by
    cases negative <;> rfl
  by_cases hm : m = 0
  · subst hm
    refine ⟨['0', '.', '0'], .inr ⟨['0'], rfl⟩, ?_⟩
    rw [← hsign]
    exact String.toList_append
  · obtain ⟨d, hs, ht⟩ := layout.render_nonzero negative h hm
    have hd : d.digits ≠ 0 := hs ▸ (Number.shortest_toBinary64 h (Nat.pos_of_ne_zero hm) negative).1
    have hleading : (Nat.toDigits 10 d.digits).head? ≠ some '0' := by
      rcases (wholePart_toDigits d.digits).leading with hz | hl
      · have hzero := Text.numeral_toDigits d.digits
        rw [hz] at hzero
        exact absurd hzero.symm hd
      · exact hl
    rw [ht, String.toList_append, hsign]
    exact ⟨_, leading_digits layout Nat.toDigits_ne_nil hleading _, rfl⟩

/-- The parts of the numeral of a double; a fraction or an exponent is among them. -/
theorem exists_parts {always : Bool} {cs : List Char} {d : Number.Decimal} (h : Number.UnsignedText always cs d)
    (hl : Leading cs) : ∃ whole fraction tail exponent, WholePart whole ∧ FractionPart fraction ∧
      Number.ExponentText tail exponent ∧ 0 < fraction.length + tail.length ∧ cs = whole ++ (fraction ++ tail) := by
  cases h with
  | @digit c tail exponent hc exponentText =>
    have hw : WholePart [c] := by
      refine ⟨by simp [hc], by simp, ?_⟩
      by_cases h0 : c = '0'
      · exact .inl (by rw [h0])
      · exact .inr (by simpa using h0)
    exact ⟨[c], [], 'e' :: tail, exponent, hw, .none, exponentText, by simp, rfl⟩
  | point h =>
    obtain ⟨wholeDigits, wholeNonempty, fractionDigits, fractionNonempty, exponentText, -⟩ := h
    rename_i whole fraction tail exponent
    have hw : WholePart whole := by
      refine ⟨wholeDigits, wholeNonempty, ?_⟩
      obtain ⟨c, whole, rfl⟩ := List.exists_cons_of_ne_nil wholeNonempty
      rcases hl with hl | ⟨rest, hl⟩
      · exact .inr (by simpa using hl)
      · cases whole with
        | nil =>
          rw [List.cons_append] at hl
          exact .inl (by rw [(List.cons.inj hl).1])
        | cons c' whole =>
          -- The second digit would be the point.
          rw [List.cons_append, List.cons_append] at hl
          have hpoint : c' = '.' := (List.cons.inj (List.cons.inj hl).2).1
          simp only [List.all_cons, Bool.and_eq_true] at wholeDigits
          rw [hpoint] at wholeDigits
          exact absurd wholeDigits.2.1 (by decide)
    exact ⟨whole, '.' :: fraction, tail, exponent, hw, .point fractionDigits fractionNonempty, exponentText,
      by simp, rfl⟩

/-- A finite double is read back from its text. -/
theorem value?_float {x : Number.Binary64} (hx : x.isFinite = true) (bound : Nat) {rest : List Char}
    (hr : Ended rest) :
    value? (bound + 1) ((Number.jsonLayout.render x).toList ++ rest) = some (.number (.float x), rest) := by
  cases x with
  | nan | infinite => cases hx
  | finite negative m e h =>
    obtain ⟨hread, hnumeral, -⟩ := Number.readBinary64?_render Number.jsonLayout negative h
    obtain ⟨cs, d, htext, -, ht⟩ := Number.jsonLayout.render_unsigned negative h
    obtain ⟨cs', hl, ht'⟩ := leading_render Number.jsonLayout negative h
    obtain rfl : cs = cs' := List.append_cancel_left (ht.symm.trans ht')
    obtain ⟨whole, fraction, tail, exponent, hw, hf, he, hmark, rfl⟩ := exists_parts htext hl
    rw [value?_numeral hnumeral, ht]
    exact number?_double negative hw hf he hr hmark (ht ▸ hread)

end PipelineTemplate.JsonText
