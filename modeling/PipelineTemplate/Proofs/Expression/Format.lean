import PipelineTemplate.Expression.Function
import PipelineTemplate.Proofs.Text.Digit

/-!
# Templates of texts

A template is written in segments, each a literal with its braces doubled or the position of a value
between single braces. However braces of neighbouring segments meet, the function that fills in templates
divides them as they were written.
-/

namespace PipelineTemplate.Format

/-- A part of a template. -/
inductive Segment where
  | literal (text : String)
  | position (i : Nat)

def isBrace (c : Char) : Bool := c = '\x7b' || c = '\x7d'

/-- A text with each of its braces written twice. -/
def doubled (cs : List Char) : List Char := cs.flatMap fun c => if isBrace c then [c, c] else [c]

/-- The placeholder of a position. -/
def placeholder (i : Nat) : List Char := '\x7b' :: (Nat.toDigits 10 i ++ ['\x7d'])

namespace Segment

/-- How a segment is written in a template. -/
def written : Segment → List Char
  | literal text => doubled text.toList
  | position i => placeholder i

/-- What a segment contributes: a literal itself, and a position the text of its value, or its own
placeholder where no value stands at it. -/
def filled (values : List Value) : Segment → List Char
  | literal text => text.toList
  | position i =>
    match values[i]? with
    | some v => v.toText.toList
    | none => placeholder i

end Segment

/-- The template of segments. -/
def template (segments : List Segment) : String := String.ofList (segments.flatMap Segment.written)

/-- The segments with their positions filled in. -/
def filled (values : List Value) (segments : List Segment) : String :=
  String.ofList (segments.flatMap (Segment.filled values))

variable (values : List Value)

/-- The rest of a placeholder is passed over. -/
theorem fillPlaceholders_skip (cs rest : List Char) :
    fillPlaceholders values cs.length (cs ++ rest) = fillPlaceholders values 0 rest := by
  induction cs with
  | nil => rfl
  | cons c cs ih =>
    rw [List.length_cons, List.cons_append, fillPlaceholders]
    exact ih

theorem fillPlaceholders_brace {c : Char} (hc : isBrace c = true) (rest : List Char) :
    fillPlaceholders values 0 (c :: c :: rest) = c :: fillPlaceholders values 0 rest := by
  have htwice : (['\x7b', '\x7b'].isPrefixOf (c :: c :: rest) ||
      ['\x7d', '\x7d'].isPrefixOf (c :: c :: rest)) = true := by
    rcases Bool.or_eq_true_iff.1 hc with h | h <;> simp [of_decide_eq_true h]
  rw [fillPlaceholders, if_pos htwice]
  exact congrArg (c :: ·) (fillPlaceholders_skip values [c] rest)

theorem fillPlaceholders_other {c : Char} (hc : isBrace c = false) (rest : List Char) :
    fillPlaceholders values 0 (c :: rest) = c :: fillPlaceholders values 0 rest := by
  obtain ⟨hopening, hclosing⟩ : c ≠ '\x7b' ∧ c ≠ '\x7d' := by simpa [isBrace] using hc
  have hnone : placeholder? (c :: rest) = none := by
    unfold placeholder?
    split
    · next h => exact absurd (List.cons.inj h).1 hopening
    · rfl
  simp [fillPlaceholders, hopening.symm, hclosing.symm, hnone]

/-- A literal comes out as it is, whatever stands behind it. -/
theorem fillPlaceholders_doubled (cs rest : List Char) :
    fillPlaceholders values 0 (doubled cs ++ rest) = cs ++ fillPlaceholders values 0 rest := by
  induction cs with
  | nil => rfl
  | cons c cs ih =>
    have hcons : doubled (c :: cs) = (if isBrace c then [c, c] else [c]) ++ doubled cs := rfl
    rw [hcons, List.append_assoc, List.cons_append, ← ih]
    cases hc : isBrace c with
    | true => exact fillPlaceholders_brace values hc _
    | false => exact fillPlaceholders_other values hc _

/-- A placeholder is recognised whatever stands behind it. -/
theorem placeholder?_append (i : Nat) (rest : List Char) :
    placeholder? (placeholder i ++ rest) = some ((Nat.toDigits 10 i).length + 2, i, []) := by
  have hspan : Text.spanDecimal (Nat.toDigits 10 i ++ '\x7d' :: rest) =
      (Nat.toDigits 10 i, '\x7d' :: rest) := Text.spanDecimal_append (Text.all_toDigits i) rfl
  rw [placeholder, List.cons_append, List.append_assoc, List.singleton_append, placeholder?]
  simp [hspan, Nat.toDigits_ne_nil]

theorem formatted_nil (v : Value) : v.formatted [] = v.toText.toList := by
  unfold Value.formatted
  split <;> rfl

/-- The placeholder of a position gives way to the text of the value, which is not looked at again. -/
theorem fillPlaceholders_placeholder (i : Nat) (rest : List Char) :
    fillPlaceholders values 0 (placeholder i ++ rest) =
      (Segment.position i).filled values ++ fillPlaceholders values 0 rest := by
  obtain ⟨d, ds, hd⟩ := List.exists_cons_of_ne_nil (Nat.toDigits_ne_nil (b := 10) (n := i))
  have hdigit : Text.isPlainDigit d = true := Text.isPlainDigit_of_mem_toDigits (hd ▸ List.mem_cons_self)
  have hopening : '\x7b' ≠ d := by
    rintro rfl
    exact absurd hdigit (by decide)
  have hread := placeholder?_append i rest
  have hskip := fillPlaceholders_skip values (Nat.toDigits 10 i ++ ['\x7d']) rest
  have htake : (placeholder i ++ rest).take ((Nat.toDigits 10 i).length + 2) = placeholder i :=
    List.take_left' (by simp [placeholder])
  have hfirst : (['\x7b', '\x7b'].isPrefixOf (placeholder i ++ rest) ||
      ['\x7d', '\x7d'].isPrefixOf (placeholder i ++ rest)) = false := by
    simp [placeholder, hd, hopening, List.isPrefixOf]
  rw [List.length_append, List.length_singleton] at hskip
  rw [placeholder, List.cons_append] at hread htake hfirst ⊢
  rw [fillPlaceholders, hfirst, if_neg Bool.false_ne_true, hread]
  simp only [htake, formatted_nil]
  rw [show (Nat.toDigits 10 i).length + 2 - 1 = (Nat.toDigits 10 i).length + 1 from rfl, hskip]
  rfl

theorem fillPlaceholders_segment (segment : Segment) (rest : List Char) :
    fillPlaceholders values 0 (segment.written ++ rest) =
      segment.filled values ++ fillPlaceholders values 0 rest := by
  cases segment with
  | literal text => exact fillPlaceholders_doubled values text.toList rest
  | position i => exact fillPlaceholders_placeholder values i rest

theorem fillPlaceholders_segments (segments : List Segment) :
    fillPlaceholders values 0 (segments.flatMap Segment.written) = segments.flatMap (Segment.filled values) := by
  induction segments with
  | nil => rfl
  | cons segment rest ih =>
    rw [List.flatMap_cons, List.flatMap_cons, fillPlaceholders_segment, ih]

/-- A template in segments is filled in segment by segment: literals come out unchanged, with the braces
that were doubled, and each position gives the text of its value, whatever characters that has, or stays
as it is written if there are not so many values. -/
theorem callNamed_template (segments : List Segment) :
    Builtin.callNamed "format" (.text (template segments) :: values) =
      return .text (filled values segments) := by
  have hname : Builtin.named? "format" = some .format := by decide +kernel
  rw [Builtin.callNamed, hname]
  have htext : (Value.text (template segments)).toText.toList = segments.flatMap Segment.written :=
    String.toList_ofList
  have hvalue : Builtin.value .format (.text (template segments) :: values) =
      .text (filled values segments) := by
    rw [filled, ← fillPlaceholders_segments values segments, ← htext]
    rfl
  exact congrArg pure hvalue

/-- Runs of braces between a literal and placeholders, and a value that looks like one itself. -/
example : template [.literal "\x7b", .position 0, .literal "\x7d", .position 3] =
      "\x7b\x7b\x7b0\x7d\x7d\x7d\x7b3\x7d" ∧
    filled [.text "\x7b0\x7d"] [.literal "\x7b", .position 0, .literal "\x7d", .position 3] =
      "\x7b\x7b0\x7d\x7d\x7b3\x7d" := by
  decide +kernel

end PipelineTemplate.Format
