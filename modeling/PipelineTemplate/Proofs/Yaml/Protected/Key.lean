import Mathlib.Data.Nat.Digits.Defs
import PipelineTemplate.Proofs.Yaml.Faithful
import PipelineTemplate.Proofs.Yaml.Protected.Layout

/-!
# Keys with expressions

The reader looks for the colon of a key on the same line and not too far away. A key that the writer puts
before a colon has no line breaks, but escapes make it longer, and so do the marks that stand for its
expressions.
-/

namespace PipelineTemplate.Yaml

open ScalarText (styleOf isLineBreak)

namespace Protected

/-! ## The length of a text with marks -/

theorem spanOf?_eq_some {cs span : List Char} (h : spanOf? cs = some span) : span <+: cs ∧ 5 ≤ span.length := by
  simp only [spanOf?, bind, Option.bind_eq_some_iff, Text.dropPrefix?_eq_some, pure, Option.some.injEq] at h
  obtain ⟨rest, rfl, ⟨body, after⟩, hcut, rfl⟩ := h
  constructor
  · rw [Text.cut?_eq_some hcut]
    exact ⟨after, by simp⟩
  · have hopening : opening.length = 3 := by decide
    have hclosing : closing.length = 2 := by decide
    rw [List.length_append, List.length_append, hopening, hclosing]
    omega

/-- The number of the expressions does not depend on the marks. -/
theorem length_spans (cs : List Char) (skip i j : Nat) :
    (protectFrom skip i cs).2.length = (protectFrom skip j cs).2.length := by
  induction cs generalizing skip i j with
  | nil => rw [protectFrom, protectFrom]
  | cons c cs ih =>
    cases skip with
    | succ skip =>
      rw [protectFrom, protectFrom]
      exact ih skip i j
    | zero =>
      rw [protectFrom, protectFrom]
      cases spanOf? (c :: cs) with
      | none => exact ih 0 i j
      | some span =>
        by_cases hline : '\n' ∈ span
        · simp only [if_pos hline]
          exact ih _ i j
        · simp only [if_neg hline, List.length_cons]
          rw [ih _ (i + 1) (j + 1)]

/-- Each expression has a character of its own. -/
theorem length_spans_le (cs : List Char) (skip index : Nat) : (protectFrom skip index cs).2.length ≤ cs.length := by
  induction cs generalizing skip index with
  | nil =>
    rw [protectFrom]
    exact Nat.le_refl 0
  | cons c cs ih =>
    rw [List.length_cons]
    cases skip with
    | succ skip =>
      rw [protectFrom]
      exact Nat.le_succ_of_le (ih skip index)
    | zero =>
      rw [protectFrom]
      cases spanOf? (c :: cs) with
      | none => exact Nat.le_succ_of_le (ih 0 index)
      | some span =>
        by_cases hline : '\n' ∈ span
        · simp only [if_pos hline]
          exact Nat.le_succ_of_le (ih _ index)
        · simp only [if_neg hline, List.length_cons]
          exact Nat.succ_le_succ (ih _ (index + 1))

/-- Numbers below this have at most twenty digits. -/
def mostMarks : Nat := 10 ^ 20

theorem length_mark {index : Nat} (h : index < mostMarks) : (mark index).length ≤ 35 := by
  have hdigits : (Nat.toDigits 10 index).length ≤ 20 := Nat.toDigits_length 10 index 20 (by decide) h
  have hstart : markStart.length = 13 := by decide
  have hend : markEnd.length = 2 := by decide
  rw [mark, List.length_append, List.length_append, hstart, hend]
  omega

/-- On one line each expression makes the text longer by at most thirty characters. -/
theorem length_protectFrom {cs : List Char} (hline : '\n' ∉ cs) {skip index : Nat} (hskip : skip ≤ cs.length)
    (hindex : index + (protectFrom skip index cs).2.length ≤ mostMarks) :
    (protectFrom skip index cs).1.length + skip ≤ cs.length + 30 * (protectFrom skip index cs).2.length := by
  induction cs generalizing skip index with
  | nil =>
    rw [protectFrom]
    simpa using hskip
  | cons c cs ih =>
    have hcs : '\n' ∉ cs := fun hm => hline (List.mem_cons_of_mem c hm)
    cases skip with
    | succ skip =>
      rw [protectFrom] at hindex ⊢
      have := ih hcs (Nat.le_of_succ_le_succ hskip) hindex
      rw [List.length_cons]
      omega
    | zero =>
      rw [protectFrom] at hindex ⊢
      cases hspan : spanOf? (c :: cs) with
      | none =>
        simp only [hspan] at hindex ⊢
        have := ih hcs (Nat.zero_le _) hindex
        rw [List.length_cons, List.length_cons]
        omega
      | some span =>
        obtain ⟨hstart, hlength⟩ := spanOf?_eq_some hspan
        have hnot : '\n' ∉ span := fun hm => hline (hstart.subset hm)
        have hle : span.length ≤ cs.length + 1 := hstart.length_le
        simp only [hspan, if_neg hnot, List.length_cons, List.length_append] at hindex ⊢
        have hmark := @length_mark index (by omega)
        have := @ih hcs (span.length - 1) (index + 1) (by omega) (by omega)
        omega

end Protected

/-! ## Characters of keys -/

namespace ScalarText

theorem straight_singleBody {cs : List Char} (h : ∀ c ∈ cs, isStraight c = true) (n : Nat) :
    ∀ c ∈ singleBody n cs, isStraight c = true := by
  induction cs with
  | nil => exact h
  | cons c cs ih =>
    obtain ⟨hc, hcs⟩ := List.forall_mem_cons.1 h
    rw [singleBody_cons (isLineBreak_eq_false (isBreak_of_straight hc)), List.forall_mem_append]
    refine ⟨?_, ih hcs⟩
    split
    · exact forall_mem_of_all (by decide)
    · exact List.forall_mem_singleton.2 hc

theorem straight_escaped (cs : List Char) : ∀ c ∈ cs.flatMap escaped, isStraight c = true := by
  intro c hc
  obtain ⟨x, -, hx⟩ := List.mem_flatMap.1 hc
  rcases escaped_cases x with ⟨he, -, -, -, hs, -⟩ | ⟨code, he, hall, -⟩
  · rw [he, List.mem_singleton] at hx
    rw [hx]
    exact hs
  · rw [he] at hx
    rcases List.mem_cons.1 hx with rfl | hx
    · decide
    · have := List.all_eq_true.1 hall c hx
      rw [Bool.and_eq_true] at this
      exact this.1

/-- Without line breaks the indentation does not matter. -/
theorem singleBody_indent {cs : List Char} (h : ∀ c ∈ cs, isLineBreak c = false) (m n : Nat) :
    singleBody m cs = singleBody n cs := by
  induction cs with
  | nil => rfl
  | cons c cs ih =>
    obtain ⟨hc, hcs⟩ := List.forall_mem_cons.1 h
    rw [singleBody_cons hc, singleBody_cons hc, ih hcs]

end ScalarText

/-- What is written on one line of a text without line breaks. -/
theorem straight_written {cs : List Char} {style : Style} (hs : style ≠ .literal) (hf : style ≠ .folded)
    (h : style = .double ∨ ∀ c ∈ cs, isStraight c = true) (n : Nat) :
    ∀ c ∈ (writtenIn n cs style).text, isStraight c = true := by
  have hquoted {q : Char} {body : List Char} (hq : isStraight q = true) (hb : ∀ c ∈ body, isStraight c = true) :
      ∀ c ∈ q :: body ++ [q], isStraight c = true :=
    List.forall_mem_append.2 ⟨List.forall_mem_cons.2 ⟨hq, hb⟩, List.forall_mem_singleton.2 hq⟩
  cases style with
  | plain => exact h.resolve_left (by decide)
  | single => exact hquoted (by decide) (ScalarText.straight_singleBody (h.resolve_left (by decide)) n)
  | double => exact hquoted (by decide) (ScalarText.straight_escaped cs)
  | literal => exact absurd rfl hs
  | folded => exact absurd rfl hf

theorem written_indent {cs : List Char} {style : Style} (hs : style ≠ .literal) (hf : style ≠ .folded)
    (h : ∀ c ∈ cs, isLineBreak c = false) (m n : Nat) : writtenIn m cs style = writtenIn n cs style := by
  cases style with
  | plain | double => rfl
  | single => simp only [writtenIn, ScalarText.single, ScalarText.singleBody_indent h m n]
  | literal => exact absurd rfl hs
  | folded => exact absurd rfl hf

/-! ## Short keys -/

/-- A key before a colon is short enough for the reader, also with marks in the place of its expressions. -/
def ShortKey (s : String) : Prop :=
  (Outline.scalar .text s).isSimpleKey = true →
    (ScalarText.write 2 .text s).text.length +
      30 * (Protected.protectFrom 0 0 (ScalarText.write 2 .text s).text).2.length ≤ 1024

instance (s : String) : Decidable (ShortKey s) := inferInstanceAs (Decidable (_ → _))

variable {s : String}

theorem lines_of_isSimpleKey (h : (Outline.scalar .text s).isSimpleKey = true) :
    ∀ c ∈ s.toList, isLineBreak c = false := by
  rw [Outline.isSimpleKey, Bool.and_eq_true, Bool.not_eq_true', List.any_eq_false] at h
  exact fun c hc => Bool.eq_false_iff.2 (h.2 c hc)

/-- A text without line breaks stands on one line. -/
theorem styleOf_line (h : ∀ c ∈ s.toList, isLineBreak c = false) :
    styleOf .text s ≠ .literal ∧ styleOf .text s ≠ .folded ∧
      (styleOf .text s = .double ∨ ∀ c ∈ s.toList, isStraight c = true) := by
  have hstraight (ha : ScalarText.needsEscapes s.toList = false) : ∀ c ∈ s.toList, isStraight c = true :=
    fun c hc => (ScalarText.isOrdinary_spec ((ScalarText.needsEscapes_eq_false ha).1 c hc)).2.2.1 (h c hc)
  rcases ScalarText.styleOf_cases .text s with ⟨-, hm, -⟩ | ⟨hs, -, ha⟩ | ⟨hs, -, ha⟩ | hs
  · exact absurd (h _ hm) (by decide)
  · rw [hs]
    exact ⟨by decide, by decide, .inr (hstraight (ScalarText.needsEscapes_of_allows (.inl ha)))⟩
  · rw [hs]
    exact ⟨by decide, by decide, .inr (hstraight (ScalarText.needsEscapes_of_allows (.inr (.inl ha))))⟩
  · rw [hs]
    exact ⟨by decide, by decide, .inl rfl⟩

/-- A short key is a key for the reader with marks in the place of its expressions. -/
theorem Faithful.isKey (hf : Faithful s) (hsimple : (Outline.scalar .text s).isSimpleKey = true) (hshort : ShortKey s)
    {n index : Nat} {opened cs' : List Char} {spans : List (List Char)}
    (hsealed : Protected.Sealed (styleEncoder n (styleOf .text s)) index s.toList opened cs' spans)
    (hkey : Protected.ProtectsKey index (writtenIn n s.toList (styleOf .text s)).text
      (writtenIn n cs' (styleOf .text s)).text spans)
    (hindex : index + spans.length ≤ Protected.mostMarks) : Reader.IsKey n cs' (styleOf .text s) := by
  have hlines := lines_of_isSimpleKey hsimple
  obtain ⟨hliteral, hfolded, hstraight⟩ := styleOf_line hlines
  have hshort := hshort hsimple
  rw [ScalarText.write_styleOf, written_indent hliteral hfolded hlines 2 n] at hshort
  have hprotect := hkey [] (by simp)
  simp only [List.append_nil, Protected.protectFrom] at hprotect
  obtain ⟨htext, hspans⟩ := Prod.ext_iff.1 hprotect
  have hmarked : ∀ c ∈ (writtenIn n cs' (styleOf .text s)).text, isStraight c = true := by
    refine straight_written hliteral hfolded (hstraight.imp id fun hcs => ?_) n
    exact hsealed.all hcs fun c hc => (Protected.straight_markChar hc).1
  refine ⟨hsealed.fits hf.writable.fits, hliteral, List.all_eq_true.2 hmarked, ?_⟩
  have hline : '\n' ∉ (writtenIn n s.toList (styleOf .text s)).text := fun hm =>
    absurd (straight_written hliteral hfolded hstraight n _ hm) (by decide)
  have hlength := @Protected.length_protectFrom _ hline _ index (Nat.zero_le _) (by rwa [hspans])
  rw [Protected.length_spans _ 0 index 0, htext, Nat.add_zero] at hlength
  exact hlength.trans hshort

end PipelineTemplate.Yaml
