import Mathlib.Algebra.Group.Nat.Defs
import Mathlib.Data.List.Chain
import PipelineTemplate.Proofs.Text.Digit
import PipelineTemplate.Proofs.Yaml.Cursor
import PipelineTemplate.Yaml.ScalarText

/-!
# Scalars in quotes

What the writer puts between apostrophes or quotation marks is read back as the text that it was made
from. The reading is followed by the parts that it goes through: a character, a run of spaces, a run of
line breaks, an escape.
-/

namespace PipelineTemplate.Yaml

namespace Cursor

def isBlank (c : Char) : Bool := c = ' ' || c = '\t'

/-! ## One part of a quoted scalar -/

section Parts

variable {double : Bool} {c d e : Cursor} {x : Char} {rest cs : List Char}

/-- The quote that encloses the scalar. -/
def quoteMark (double : Bool) : Char := if double then '"' else '\''

def quoteStyle (double : Bool) : Style := if double then .double else .single

/-- A scalar that is read from a later cursor is read from here if the run of characters reaches there. -/
theorem quotedRest_extend {part : List Char} (hlt : d.rest.length < c.rest.length)
    (hrun : c.quotedRun double = (do
      let (more, f) ← d.quotedRun double
      return (part ++ more, f)))
    (h : d.quotedRest double = .ok (cs, e)) : c.quotedRest double = .ok (part ++ cs, e) := by
  rw [quotedRest] at h ⊢
  rw [hrun]
  cases hd : d.quotedRun double with
  | error f => simp [hd, bind, Except.bind] at h
  | ok run =>
    obtain ⟨more, f⟩ := run
    simp only [hd, bind, Except.bind, pure, Except.pure] at h ⊢
    by_cases hat : f.isAt (if double = true then '"' else '\'') = true
    · rw [if_pos hat] at h ⊢
      simp only [Except.ok.injEq, Prod.mk.injEq] at h ⊢
      exact ⟨by rw [h.1], h.2⟩
    · rw [if_neg hat] at h ⊢
      cases hg : f.quotedGap with
      | error g => simp [hg] at h
      | ok g =>
        obtain ⟨gap, g⟩ := g
        simp only [hg] at h ⊢
        split at h
        · rename_i hlt'
          rw [dif_pos (Nat.lt_trans hlt' hlt)]
          cases hr : g.quotedRest double with
          | error _ => simp [hr] at h
          | ok r =>
            obtain ⟨tail, z⟩ := r
            simp only [hr, Except.ok.injEq, Prod.mk.injEq] at h ⊢
            exact ⟨by rw [← h.1]; simp, h.2⟩
        · simp [fail] at h

theorem next_lt (h : c.rest = x :: rest) : c.next.rest.length < c.rest.length := by
  rw [next_length, h, List.length_cons]
  omega

/-- A character that stands for itself. -/
theorem quotedRest_char (hc : c.rest = x :: rest) (hb : isBlank x = false) (hl : isBreak x = false)
    (hq : x ≠ quoteMark double) (he : double = true → x ≠ '\\')
    (h : c.next.quotedRest double = .ok (cs, e)) : c.quotedRest double = .ok (x :: cs, e) := by
  have hlt := next_lt hc
  refine @quotedRest_extend _ _ _ _ _ [x] hlt ?_ h
  have hword : (x = ' ' || x = '\t' || isBreak x) = false := by
    rw [hl, Bool.or_false]
    exact hb
  rw [quotedRun]
  simp only [hc] at hlt ⊢
  cases double with
  | false =>
    have hq' : x ≠ '\'' := hq
    simp only [hword, Bool.false_eq_true, if_false, hq', hlt, dif_pos]
  | true =>
    have hq' : x ≠ '"' := hq
    simp only [hword, Bool.false_eq_true, if_false, if_true, hq', he rfl, hlt, dif_pos]

/-- Two apostrophes stand for one. -/
theorem quotedRest_apostrophe (hc : c.rest = '\'' :: '\'' :: rest)
    (h : (c.advance 2).quotedRest false = .ok (cs, e)) : c.quotedRest false = .ok ('\'' :: cs, e) := by
  have hlt : (c.advance 2).rest.length < c.rest.length := by
    rw [advance_length, hc, List.length_cons, List.length_cons]
    omega
  refine @quotedRest_extend _ _ _ _ _ ['\''] hlt ?_ h
  rw [quotedRun]
  have hword : (decide ('\'' = ' ') || decide ('\'' = '\t') || isBreak '\'') = false := by decide
  simp only [hc] at hlt ⊢
  simp only [hword, Bool.false_eq_true, if_false, if_true, List.head?_cons, hlt, dif_pos]

/-- A backslash and what follows it. -/
theorem quotedRest_escape {part : List Char} (hc : c.rest = '\\' :: rest)
    (hp : c.next.escape = .ok (part, d)) (hlt : d.rest.length < c.rest.length)
    (h : d.quotedRest true = .ok (cs, e)) : c.quotedRest true = .ok (part ++ cs, e) := by
  refine @quotedRest_extend _ _ _ _ _ part hlt ?_ h
  rw [quotedRun]
  have hword : (decide ('\\' = ' ') || decide ('\\' = '\t') || isBreak '\\') = false := by decide
  have hquote : '\\' ≠ '"' := by decide
  simp only [hc] at hlt ⊢
  simp only [hword, Bool.false_eq_true, if_false, if_true, hquote, hp, bind, Except.bind, hlt, dif_pos]

/-- A scalar ends at its quote, unless that is an apostrophe and another one follows. -/
theorem quotedRest_close (hc : c.rest = quoteMark double :: rest)
    (hr : double = false → rest.head? ≠ some '\'') : c.quotedRest double = .ok ([], c.next) := by
  have hrun : c.quotedRun double = .ok ([], c) := by
    rw [quotedRun]
    cases double with
    | false =>
      have hword : (decide ('\'' = ' ') || decide ('\'' = '\t') || isBreak '\'') = false := by decide
      simp only [quoteMark, Bool.false_eq_true, if_false] at hc
      simp only [hc, hword, Bool.false_eq_true, if_false, if_true, hr rfl]
    | true =>
      have hword : (decide ('"' = ' ') || decide ('"' = '\t') || isBreak '"') = false := by decide
      simp only [quoteMark, if_true] at hc
      simp only [hc, hword, Bool.false_eq_true, if_false, if_true]
  have hat : c.isAt (if double = true then '"' else '\'') = true := by
    simp [isAt, peek, hc, quoteMark]
  rw [quotedRest, hrun]
  simp only [bind, Except.bind, hat, if_true, pure, Except.pure]

/-- At a blank or a break the scalar goes on after the gap. -/
theorem quotedRest_gap {gap : List Char} (hc : c.rest = x :: rest)
    (hx : isBlank x = true ∨ isBreak x = true) (hg : c.quotedGap = .ok (gap, d))
    (hlt : d.rest.length < c.rest.length) (h : d.quotedRest double = .ok (cs, e)) :
    c.quotedRest double = .ok (gap ++ cs, e) := by
  have hword : (x = ' ' || x = '\t' || isBreak x) = true := by
    rw [Bool.or_eq_true]
    exact hx
  have hrun : c.quotedRun double = .ok ([], c) := by
    rw [quotedRun]
    simp only [hc, hword, if_true]
  have hat : c.isAt (if double = true then '"' else '\'') = false := by
    rw [isAt, peek, hc, List.head?_cons]
    have hne : x ≠ if double = true then '"' else '\'' := by
      rintro rfl
      cases double <;> exact absurd hx (by decide)
    simpa using hne
  rw [quotedRest, hrun]
  simp only [bind, Except.bind, hat, Bool.false_eq_true, if_false, hg, hlt, dif_pos, h, pure,
    Except.pure, List.nil_append]

end Parts

/-! ## Gaps -/

/-- The line breaks that scalars keep as they are. -/
def isSeparator (c : Char) : Bool := c = '\u2028' || c = '\u2029'

theorem isSeparator_iff {b : Char} : isSeparator b = true ↔ b = '\u2028' ∨ b = '\u2029' := by
  simp [isSeparator]

theorem lineBreak_separator {c : Cursor} {b : Char} {rest : List Char} (hb : isSeparator b = true)
    (hc : c.rest = b :: rest) : c.lineBreak = ([b], c.next) := by
  rcases isSeparator_iff.1 hb with rfl | rfl <;> simp [lineBreak, hc]

section Gaps

variable {c : Cursor} {x : Char} {rest : List Char} (hx : isBlank x = false) (hl : isBreak x = false)
include hx hl

/-- The blanks between two words. -/
theorem quotedGap_blanks {bs : List Char} (hbs : bs.all isBlank = true) (hc : c.rest = bs ++ x :: rest) :
    c.quotedGap = .ok (bs, c.advance bs.length) := by
  have hword : c.word (fun char => char = ' ' || char = '\t') = bs := by
    have := @word_eq _ _ (x :: rest) hbs (by simpa [isBlank] using hx) c.index c.line c.column
    rwa [← hc] at this
  have hrest : (c.advance bs.length).rest = x :: rest := advance_rest_append hc
  simp only [quotedGap, hword, peek, hrest, List.head?_cons, hl, Bool.false_eq_true, if_false]

/-- The breaks before an indented line. -/
theorem quotedBreaks_indented {n : Nat} (hn : 0 < n) {bs : List Char} (hbs : bs.all isSeparator = true)
    (hc : c.rest = bs ++ (List.replicate n ' ' ++ x :: rest)) :
    c.quotedBreaks = .ok (bs, c.advance (bs.length + n)) := by
  induction bs generalizing c with
  | nil =>
    obtain ⟨text, i, l, k⟩ := c
    subst hc
    have hmark : atDocumentMark ⟨[] ++ (List.replicate n ' ' ++ x :: rest), i, l, k⟩ = false := by
      obtain ⟨m, rfl⟩ := Nat.exists_eq_add_of_lt hn
      simp [atDocumentMark, List.replicate_succ]
    have hskip := @skip_eq _ _ (x :: rest) (all_spaces (by decide) n)
      (@all_spaces (fun c => c = ' ' || c = '\t') (by decide) n)
      (by simpa [isBlank] using hx) i l k
    have hadvance := advance_straight (all_spaces (by decide) n) (x :: rest) i l k
    rw [List.length_replicate] at hskip hadvance
    rw [List.nil_append] at hmark ⊢
    rw [quotedBreaks, if_neg (by simp [hmark]), hskip, List.length_nil, Nat.zero_add, hadvance]
    simp [hl]
  | cons b bs ih =>
    obtain ⟨text, i, l, k⟩ := c
    subst hc
    rw [List.all_cons, Bool.and_eq_true] at hbs
    have hb : isBreak b = true ∧ isBlank b = false ∧ b ≠ '-' ∧ b ≠ '.' := by
      rcases isSeparator_iff.1 hbs.1 with rfl | rfl <;> decide
    have hmark : atDocumentMark ⟨b :: bs ++ (List.replicate n ' ' ++ x :: rest), i, l, k⟩ = false := by
      simp [atDocumentMark, hb.2.2.1.symm, hb.2.2.2.symm]
    have hskip : skip ⟨b :: bs ++ (List.replicate n ' ' ++ x :: rest), i, l, k⟩
        (fun char => char = ' ' || char = '\t') = ⟨b :: bs ++ (List.replicate n ' ' ++ x :: rest), i, l, k⟩ := by
      have : (decide (b = ' ') || decide (b = '\t')) = false := hb.2.1
      simp [skip, word, this, advance]
    have hnext : (next ⟨b :: bs ++ (List.replicate n ' ' ++ x :: rest), i, l, k⟩).rest =
        bs ++ (List.replicate n ' ' ++ x :: rest) := by
      simp only [next, List.cons_append]
      split <;> rfl
    rw [quotedBreaks, if_neg (Bool.eq_false_iff.1 hmark), hskip]
    simp only [List.cons_append, hb.1, dif_pos]
    rw [← List.cons_append, lineBreak_separator hbs.1 rfl]
    simp only [ih hbs.2 hnext, bind, Except.bind, pure, Except.pure]
    rw [List.length_cons, Nat.add_right_comm, advance]
    rfl

/-- Line breaks and the indentation of the next line. -/
theorem quotedGap_breaks {n : Nat} (hn : 0 < n) {b : Char} {bs : List Char} (hb : isSeparator b = true)
    (hbs : bs.all isSeparator = true) (hc : c.rest = b :: bs ++ (List.replicate n ' ' ++ x :: rest)) :
    c.quotedGap = .ok (b :: bs, c.advance ((b :: bs).length + n)) := by
  have hbreak : isBreak b = true ∧ (decide (b = ' ') || decide (b = '\t')) = false ∧ [b] ≠ ['\n'] := by
    rcases isSeparator_iff.1 hb with rfl | rfl <;> decide
  have hword : c.word (fun char => char = ' ' || char = '\t') = [] := by
    simp [word, hc, hbreak.2.1]
  have hnext : c.next.rest = bs ++ (List.replicate n ' ' ++ x :: rest) := by
    simp only [next, hc, List.cons_append]
    split <;> rfl
  simp only [quotedGap, hword, List.length_nil, advance, peek, hc, List.cons_append, List.head?_cons,
    hbreak.1, if_true, lineBreak_separator hb hc, quotedBreaks_indented hx hl hn hbs hnext, bind,
    Except.bind, pure, Except.pure]
  rw [if_pos hbreak.2.2, List.length_cons, Nat.add_right_comm, advance]
  rfl

end Gaps

end Cursor

/-! ## Runs -/

/-- A text is empty, or begins with a character of neither class, or with a run of one of the classes
that is as long as possible. -/
theorem runs_induction {P : List Char → Prop} (p q : Char → Bool) (nil : P [])
    (char : ∀ c cs, p c = false → q c = false → P cs → P (c :: cs))
    (first : ∀ c run cs, (c :: run).all p = true → (cs.head?.all fun d => !p d) = true → P cs →
      P (c :: run ++ cs))
    (second : ∀ c run cs, (c :: run).all q = true → (cs.head?.all fun d => !q d) = true → P cs →
      P (c :: run ++ cs)) (cs : List Char) : P cs := by
  have hrun (test : Char → Bool) (c : Char) (cs : List Char) (hc : test c = true) :
      (c :: cs.takeWhile test).all test = true ∧ ((cs.dropWhile test).head?.all fun d => !test d) = true ∧
        c :: cs = c :: cs.takeWhile test ++ cs.dropWhile test := by
    refine ⟨?_, ?_, by simp⟩
    · rw [List.all_cons, hc, Bool.true_and, List.all_takeWhile]
    · have := List.head?_dropWhile_not test cs
      cases hd : (cs.dropWhile test).head? with
      | none => rfl
      | some d =>
        rw [hd] at this
        simpa using this
  induction h : cs.length using Nat.strongRecOn generalizing cs with
  | ind m ih =>
    cases cs with
    | nil => exact nil
    | cons c cs =>
      have hlt (test : Char → Bool) : (cs.dropWhile test).length < m := by
        have := (List.dropWhile_suffix (l := cs) test).length_le
        rw [List.length_cons] at h
        omega
      by_cases hp : p c = true
      · obtain ⟨hall, hhead, heq⟩ := hrun p c cs hp
        rw [heq]
        exact first c _ _ hall hhead (ih _ (hlt p) _ rfl)
      by_cases hq : q c = true
      · obtain ⟨hall, hhead, heq⟩ := hrun q c cs hq
        rw [heq]
        exact second c _ _ hall hhead (ih _ (hlt q) _ rfl)
      · refine char c cs (Bool.eq_false_iff.2 hp) (Bool.eq_false_iff.2 hq) (ih cs.length ?_ cs rfl)
        rw [← h, List.length_cons]
        omega

/-! ## Between apostrophes -/

/-- A text that can stand between apostrophes: its breaks are separators, and no space is next to one. -/
structure IsSingleText (cs : List Char) : Prop where
  breaks : ∀ c ∈ cs, c ≠ '\t' ∧ (isBreak c = true → Cursor.isSeparator c = true)
  before : cs.IsChain fun c d => ¬(c = ' ' ∧ isBreak d = true)
  behind : cs.IsChain fun c d => ¬(isBreak c = true ∧ d = ' ')

theorem IsSingleText.append {xs ys : List Char} (h : IsSingleText (xs ++ ys)) : IsSingleText ys :=
  ⟨fun c hc => h.breaks c (List.mem_append_right _ hc), (List.isChain_append.1 h.before).2.1,
    (List.isChain_append.1 h.behind).2.1⟩

theorem IsSingleText.behind_spaces {k : Nat} {cs : List Char} (h : IsSingleText (List.replicate (k + 1) ' ' ++ cs)) :
    cs.head?.all fun d => !isBreak d := by
  cases cs with
  | nil => rfl
  | cons d cs =>
    have hlast : ' ' ∈ (List.replicate (k + 1) ' ').getLast? := by
      rw [List.replicate_succ', List.getLast?_concat]
      rfl
    simpa using (List.isChain_append.1 h.before).2.2 ' ' hlast d rfl

theorem IsSingleText.behind_breaks {b : Char} {bs cs : List Char} (h : IsSingleText (b :: bs ++ cs))
    (hbs : (b :: bs).all isBreak = true) : cs.head?.all fun d => !decide (d = ' ') := by
  cases cs with
  | nil => rfl
  | cons d cs =>
    obtain ⟨e, he⟩ : ∃ e, e ∈ (b :: bs).getLast? := ⟨_, List.getLast?_eq_some_getLast (List.cons_ne_nil b bs)⟩
    have hbreak := List.all_eq_true.1 hbs e (List.mem_of_getLast? he)
    simpa [hbreak] using (List.isChain_append.1 h.behind).2.2 e he d rfl

namespace ScalarText

variable {n : Nat}

theorem isLineBreak_of_separator {b : Char} (h : Cursor.isSeparator b = true) : isLineBreak b = true := by
  rcases Cursor.isSeparator_iff.1 h with rfl | rfl <;> decide

theorem isLineBreak_eq_false {c : Char} (h : isBreak c = false) : isLineBreak c = false := by
  simp only [isBreak, Bool.or_eq_false_iff] at h
  simp [isLineBreak, h.1.1.1.1, h.1.1.2, h.1.2, h.2]

theorem singleBody_cons {c : Char} {cs : List Char} (h : isLineBreak c = false) :
    singleBody n (c :: cs) = (if c = '\'' then ['\'', '\''] else [c]) ++ singleBody n cs := by
  rw [singleBody, h, Bool.false_and, if_neg Bool.false_ne_true, List.append_nil]

theorem singleBody_spaces (m : Nat) (cs : List Char) :
    singleBody n (List.replicate m ' ' ++ cs) = List.replicate m ' ' ++ singleBody n cs := by
  induction m with
  | zero => rfl
  | succ m ih =>
    rw [List.replicate_succ, List.cons_append, singleBody_cons (by decide), ih]
    rfl

/-- After breaks the next line is indented. -/
theorem singleBody_breaks {b : Char} {bs cs : List Char} (hb : (b :: bs).all Cursor.isSeparator = true)
    (hcs : cs.head?.all fun c => !isLineBreak c) :
    singleBody n (b :: bs ++ cs) = b :: bs ++ (List.replicate n ' ' ++ singleBody n cs) := by
  induction bs generalizing b with
  | nil =>
    rw [List.all_cons, Bool.and_eq_true] at hb
    have hne : b ≠ '\'' := by
      rintro rfl
      exact absurd hb.1 (by decide)
    have hhead : cs.head?.any isLineBreak = false := by
      cases cs with
      | nil => rfl
      | cons c cs => simpa using hcs
    simp [singleBody, hne, isLineBreak_of_separator hb.1, hhead]
  | cons b' bs ih =>
    rw [List.all_cons, Bool.and_eq_true] at hb
    have hne : b ≠ '\'' := by
      rintro rfl
      exact absurd hb.1 (by decide)
    have hb' := hb.2
    rw [List.all_cons, Bool.and_eq_true] at hb'
    have hstep : singleBody n (b :: (b' :: bs ++ cs)) = b :: singleBody n (b' :: bs ++ cs) := by
      rw [singleBody]
      simp [hne, isLineBreak_of_separator hb'.1]
    rw [List.cons_append, hstep, ih hb.2]
    rfl

/-- The text between apostrophes begins as the scalar does, or with the closing one. -/
theorem exists_singleBody_head {cs tail : List Char} (h : IsSingleText cs)
    (hs : cs.head?.all fun c => !decide (c = ' ')) (hb : cs.head?.all fun c => !isBreak c) :
    ∃ x rest, singleBody n cs ++ '\'' :: tail = x :: rest ∧ Cursor.isBlank x = false ∧ isBreak x = false := by
  cases cs with
  | nil => exact ⟨'\'', tail, rfl, by decide, by decide⟩
  | cons c cs =>
    have hbreak : isBreak c = false := by simpa using hb
    have hspace : c ≠ ' ' := by simpa using hs
    rw [singleBody_cons (isLineBreak_eq_false hbreak)]
    by_cases hq : c = '\''
    · subst hq
      exact ⟨'\'', _, rfl, by decide, by decide⟩
    · rw [if_neg hq]
      exact ⟨c, _, rfl, by simp [Cursor.isBlank, hspace, (h.breaks c (by simp)).1], hbreak⟩

end ScalarText

namespace Cursor

/-- Blanks are kept before a character that does not go on with the gap. -/
theorem quotedRest_blanks {double : Bool} {b : Char} {bs : List Char} {n : Nat} {c : Cursor} {x : Char}
    {text cs rest : List Char} (hbs : (b :: bs).all isBlank = true) (hc : c.rest = b :: bs ++ text)
    (htext : text = x :: rest) (hx : isBlank x = false) (hb : isBreak x = false)
    (h : ∀ d : Cursor, d.rest = text → d.quotedRest double = .ok (cs, d.advance n)) :
    c.quotedRest double = .ok (b :: bs ++ cs, c.advance ((b :: bs).length + n)) := by
  have hlt : (c.advance (b :: bs).length).rest.length < c.rest.length := by
    rw [advance_rest_append hc, hc, List.length_append, List.length_cons]
    omega
  have hblank : isBlank b = true := List.all_eq_true.1 hbs b List.mem_cons_self
  have hgap := quotedGap_blanks hx hb hbs (htext ▸ hc)
  rw [@quotedRest_gap _ _ _ _ b (bs ++ text) _ _ hc (Or.inl hblank) hgap hlt (h _ (advance_rest_append hc)),
    advance_advance]

theorem quotedRest_spaces {double : Bool} {k n : Nat} {c : Cursor} {x : Char} {text cs rest : List Char}
    (hc : c.rest = List.replicate (k + 1) ' ' ++ text) (htext : text = x :: rest) (hx : isBlank x = false)
    (hb : isBreak x = false) (h : ∀ d : Cursor, d.rest = text → d.quotedRest double = .ok (cs, d.advance n)) :
    c.quotedRest double = .ok (List.replicate (k + 1) ' ' ++ cs, c.advance (k + 1 + n)) := by
  have hspaces : (List.replicate (k + 1) ' ').all isBlank = true := all_spaces (by decide) (k + 1)
  have hrest := quotedRest_blanks hspaces hc htext hx hb h
  rwa [← List.replicate_succ, List.length_replicate] at hrest

/-- What stands between apostrophes, before some text, is read as the text that it was made from. -/
def ReadsSingle (n : Nat) (tail cs : List Char) : Prop :=
  ∀ c : Cursor, c.rest = ScalarText.singleBody n cs ++ '\'' :: tail →
    c.quotedRest false = .ok (cs, c.advance ((ScalarText.singleBody n cs).length + 1))

namespace ReadsSingle

variable {n : Nat} {tail cs : List Char}

theorem char {x : Char} (hcs : IsSingleText (x :: cs)) (hspace : x ≠ ' ') (hbreak : isBreak x = false)
    (ih : ReadsSingle n tail cs) : ReadsSingle n tail (x :: cs) := by
  intro c hc
  rw [ScalarText.singleBody_cons (ScalarText.isLineBreak_eq_false hbreak)] at hc ⊢
  by_cases hq : x = '\''
  · subst hq
    have h := quotedRest_apostrophe hc (ih _ (advance_rest_append (w := ['\'', '\'']) hc))
    rw [advance_advance] at h
    rw [h, if_pos rfl]
    refine congrArg (fun m => Except.ok ('\'' :: cs, c.advance m)) ?_
    simp only [List.length_append, List.length_cons, List.length_nil]
    omega
  · rw [if_neg hq] at hc ⊢
    have hblank : isBlank x = false := by simp [isBlank, (hcs.breaks x (by simp)).1, hspace]
    exact quotedRest_char hc hblank hbreak hq (fun h => absurd h Bool.false_ne_true)
      (ih _ (advance_rest_append (w := [x]) hc))

theorem spaces {k : Nat} (hcs : IsSingleText (List.replicate (k + 1) ' ' ++ cs))
    (hhead : cs.head?.all fun d => !decide (d = ' ')) (ih : ReadsSingle n tail cs) :
    ReadsSingle n tail (List.replicate (k + 1) ' ' ++ cs) := by
  intro c hc
  rw [ScalarText.singleBody_spaces] at hc ⊢
  rw [List.append_assoc] at hc
  obtain ⟨y, rest, heq, hy, hyb⟩ :=
    @ScalarText.exists_singleBody_head n _ tail hcs.append hhead hcs.behind_spaces
  rw [quotedRest_spaces hc heq hy hyb ih, List.length_append, List.length_replicate, ← Nat.add_assoc]

theorem breaks (hn : 0 < n) {b : Char} {bs : List Char} (hcs : IsSingleText (b :: bs ++ cs))
    (hbs : (b :: bs).all isBreak = true) (hhead : cs.head?.all fun d => !isBreak d)
    (ih : ReadsSingle n tail cs) : ReadsSingle n tail (b :: bs ++ cs) := by
  intro c hc
  have hsep : ∀ d ∈ b :: bs, isSeparator d = true := fun d hd =>
    (hcs.breaks d (List.mem_append_left _ hd)).2 (List.all_eq_true.1 hbs d hd)
  have hline : cs.head?.all fun d => !ScalarText.isLineBreak d := by
    cases cs with
    | nil => rfl
    | cons d cs =>
      have hd : isBreak d = false := by simpa using hhead
      simp [ScalarText.isLineBreak_eq_false hd]
  rw [ScalarText.singleBody_breaks (List.all_eq_true.2 hsep) hline] at hc ⊢
  obtain ⟨y, rest, heq, hy, hyb⟩ :=
    @ScalarText.exists_singleBody_head n _ tail hcs.append (hcs.behind_breaks hbs) hhead
  have hc' : (c.advance ((b :: bs).length + n)).rest = ScalarText.singleBody n cs ++ '\'' :: tail := by
    have := @advance_rest_append c (b :: bs ++ List.replicate n ' ')
      (ScalarText.singleBody n cs ++ '\'' :: tail) (by rw [hc]; simp)
    rwa [List.length_append, List.length_replicate] at this
  rw [List.append_assoc, List.append_assoc] at hc
  have hlt : (c.advance ((b :: bs).length + n)).rest.length < c.rest.length := by
    rw [advance_length, hc, List.length_append, List.length_cons]
    omega
  have hgap := quotedGap_breaks hy hyb hn (hsep b (by simp))
    (List.all_eq_true.2 fun d hd => hsep d (List.mem_cons_of_mem b hd)) (heq ▸ hc)
  have h := @quotedRest_gap _ _ _ _ b (bs ++ _) _ _ hc (Or.inr (List.all_eq_true.1 hbs b (by simp)))
    hgap hlt (ih _ hc')
  rw [h, advance_advance]
  refine congrArg (fun m => Except.ok (b :: bs ++ cs, c.advance m)) ?_
  simp only [List.length_append, List.length_replicate]
  omega

end ReadsSingle

/-- What stands between apostrophes is read as the text that it was made from. -/
theorem quotedRest_single {n : Nat} (hn : 0 < n) {cs tail : List Char} (hcs : IsSingleText cs)
    (ht : tail.head? ≠ some '\'') : ReadsSingle n tail cs := by
  induction cs using runs_induction (· = ' ') isBreak with
  | nil => exact fun c hc => quotedRest_close hc fun _ => ht
  | char x cs hspace hbreak ih =>
    exact .char hcs (of_decide_eq_false hspace) hbreak (ih (show IsSingleText ([x] ++ cs) from hcs).append)
  | first x run cs hrun hhead ih =>
    have hspaces : x :: run = List.replicate (run.length + 1) ' ' :=
      List.eq_replicate_iff.2 ⟨rfl, fun d hd => of_decide_eq_true (List.all_eq_true.1 hrun d hd)⟩
    rw [hspaces] at hcs ⊢
    exact .spaces hcs hhead (ih hcs.append)
  | second b bs cs hbs hhead ih => exact .breaks hn hcs hbs hhead (ih hcs.append)

end Cursor

end PipelineTemplate.Yaml

namespace PipelineTemplate.Text

/-! ## Hexadecimal digits -/

theorem hexNumeral_concat (ds : List Char) (d : Char) :
    hexNumeral (ds ++ [d]) = 16 * hexNumeral ds + (hexValue? d).getD 0 := by
  simp [hexNumeral]

/-- Capital digits spell the number that they were made from. -/
theorem hexNumeral_toDigits (n : Nat) :
    hexNumeral ((Nat.toDigits 16 n).map Char.toUpper) = n ∧
      ((Nat.toDigits 16 n).map Char.toUpper).all isHex = true := by
  have hdigit : ∀ k < 16, hexValue? k.digitChar.toUpper = some k := by decide
  induction n using Nat.strongRecOn with
  | ind n ih =>
    by_cases hlt : n < 16
    · have hd := hdigit n hlt
      rw [Nat.toDigits_of_lt_base hlt]
      simp [hexNumeral, isHex, hd]
    · obtain ⟨hv, ha⟩ := ih (n / 16) (by omega)
      have hd := hdigit (n % 16) (Nat.mod_lt n (by decide))
      rw [Nat.toDigits_of_base_le (by decide) (by omega), List.map_append, List.map_singleton,
        hexNumeral_concat, hv, List.all_append, ha, hd]
      refine ⟨Nat.div_add_mod n 16, ?_⟩
      simp [isHex, hd]

theorem hexNumeral_zeros (m : Nat) (ds : List Char) :
    hexNumeral (List.replicate m '0' ++ ds) = hexNumeral ds := by
  have hzero : hexValue? '0' = some 0 := rfl
  induction m with
  | zero => rfl
  | succ m ih =>
    rw [List.replicate_succ, List.cons_append, hexNumeral, List.foldl_cons, hzero]
    exact ih

theorem hexPadded_spec {width n : Nat} (hw : 0 < width) (hn : n < 16 ^ width) :
    let ds := (hexPadded width n).map Char.toUpper
    ds.length = width ∧ ds.all isHex = true ∧ hexNumeral ds = n := by
  have hlen := (Nat.length_toDigits_le_iff (b := 16) (by decide) hw).2 hn
  have hspec := hexNumeral_toDigits n
  have hzero : Char.toUpper '0' = '0' := by decide
  simp only [hexPadded, List.map_append, List.map_replicate, hzero]
  refine ⟨?_, ?_, ?_⟩
  · simp only [List.length_append, List.length_replicate, List.length_map]
    omega
  · rw [List.all_append, hspec.2, Bool.and_true, List.all_eq_true]
    intro c hc
    rw [List.eq_of_mem_replicate hc]
    decide
  · rw [hexNumeral_zeros, hspec.1]

end PipelineTemplate.Text

namespace PipelineTemplate.Yaml

/-! ## Between quotation marks -/

namespace ScalarText

theorem shortEscape?_of_letter {c letter : Char} (h : escapeLetter? c = some letter) :
    Cursor.shortEscape? letter = some c ∧ isStraight letter = true ∧ isAllowed letter = true := by
  have hall : ∀ pair ∈ ([('\x00', '0'), ('\x07', 'a'), ('\x08', 'b'), ('\t', 't'), ('\n', 'n'),
      ('\x0b', 'v'), ('\x0c', 'f'), ('\r', 'r'), ('\x1b', 'e'), ('"', '"'), ('\\', '\\'), ('\x85', 'N'),
      ('\u2028', 'L'), ('\u2029', 'P')] : List (Char × Char)),
      Cursor.shortEscape? pair.2 = some pair.1 ∧ isStraight pair.2 = true ∧ isAllowed pair.2 = true := by
    decide
  obtain ⟨before, after, heq, -⟩ := List.lookup_eq_some_iff.1 h
  exact hall (c, letter) (heq ▸ by simp)

theorem char_le_iff {c d : Char} : c ≤ d ↔ c.toNat ≤ d.toNat := Iff.rfl

/-- Printable characters of the plain Latin script. -/
theorem straight_of_ascii {c : Char} (hl : 0x20 ≤ c.toNat) (hu : c.toNat ≤ 0x7E) :
    isStraight c = true ∧ isAllowed c = true := by
  have hne {d : Char} (hd : d.toNat < 0x20 ∨ 0x7E < d.toNat) : c ≠ d := by
    rintro rfl
    omega
  have hn := hne (d := '\n') (by decide)
  have hr := hne (d := '\r') (by decide)
  have hnel := hne (d := '\x85') (by decide)
  have hls := hne (d := '\u2028') (by decide)
  have hps := hne (d := '\u2029') (by decide)
  have hbom := hne (d := '\uFEFF') (by decide)
  refine ⟨by simp [isStraight, isBreak, hn, hr, hnel, hls, hps, hbom], ?_⟩
  simp [isAllowed, hl, hu]

theorem straight_of_isHex {c : Char} (h : Text.isHex c = true) :
    isStraight c = true ∧ isAllowed c = true := by
  obtain ⟨d, hd⟩ := Option.isSome_iff_exists.1 h
  have hcases := Text.hexValue?_cases hd
  exact straight_of_ascii (by omega) (by omega)

/-- The number of a character in hexadecimal digits, after the letter that tells how many follow. -/
theorem escape_code {c x : Char} {width : Nat} (hx : Cursor.shortEscape? x = none)
    (hcode : Cursor.codeLength? x = some width) (hw : 0 < width) (hn : c.toNat < 16 ^ width) (k : Cursor)
    (rest : List Char) (hk : k.rest = x :: (Text.hexPadded width c.toNat).map Char.toUpper ++ rest) :
    k.escape = .ok ([c], k.advance (x :: (Text.hexPadded width c.toNat).map Char.toUpper).length) := by
  obtain ⟨hlen, hall, hvalue⟩ := Text.hexPadded_spec hw hn
  have htake : ((Text.hexPadded width c.toNat).map Char.toUpper ++ rest).take width =
      (Text.hexPadded width c.toNat).map Char.toUpper := by
    exact List.take_left' hlen
  have hvalid : c.toNat ≤ 0x10FFFF := by
    have := c.valid
    simp only [UInt32.isValidChar, Nat.isValidChar] at this
    have htoNat : c.toNat = c.val.toNat := rfl
    omega
  have hchar : Cursor.charOfCode c.toNat = .ok c := by
    rw [Cursor.charOfCode, if_pos hvalid, Char.ofNat_toNat]
  rw [Cursor.escape]
  simp only [hk, List.cons_append, hx, hcode, htake, hlen, hall, and_self, if_true, hvalue, hchar, bind,
    Except.bind, pure, Except.pure, List.length_cons]

/-- What is written of a character is a backslash and a code that is read as the character. -/
def HasCode (c : Char) : Prop :=
  ∃ code, escaped c = '\\' :: code ∧ (code.all fun d => isStraight d && isAllowed d) = true ∧
    ∀ (k : Cursor) (rest : List Char), k.rest = code ++ rest → k.escape = .ok ([c], k.advance code.length)

theorem hasCode_letter {c letter : Char} (h : escapeLetter? c = some letter) : HasCode c := by
  obtain ⟨hshort, hs, ha⟩ := shortEscape?_of_letter h
  refine ⟨[letter], by simp [escaped, h], by simp [hs, ha], fun k rest hk => ?_⟩
  rw [Cursor.escape]
  simp only [hk, List.singleton_append, hshort, List.length_singleton, Cursor.advance]

theorem hasCode_number {c : Char} (x : Char) (width : Nat)
    (hw : Cursor.shortEscape? x = none ∧ Cursor.codeLength? x = some width)
    (hx : isStraight x = true ∧ isAllowed x = true) (hn : 0 < width ∧ c.toNat < 16 ^ width)
    (he : escaped c = '\\' :: x :: (Text.hexPadded width c.toNat).map Char.toUpper) : HasCode c := by
  refine ⟨_, he, ?_, fun k rest hk => escape_code hw.1 hw.2 hn.1 hn.2 k rest hk⟩
  rw [List.all_cons, hx.1, hx.2, Bool.true_and, Bool.true_and, List.all_eq_true]
  intro d hd
  have := straight_of_isHex (List.all_eq_true.1 (Text.hexPadded_spec hn.1 hn.2).2.1 d hd)
  rw [this.1, this.2, Bool.true_and]

/-- A character between quotation marks stands for itself, or it is escaped. -/
theorem escaped_cases (c : Char) :
    (escaped c = [c] ∧ c ≠ '"' ∧ c ≠ '\\' ∧ c ≠ '\t' ∧ isStraight c = true ∧ isAllowed c = true) ∨ HasCode c := by
  cases hletter : escapeLetter? c with
  | some letter => exact .inr (hasCode_letter hletter)
  | none =>
    have hne {d : Char} (hd : escapeLetter? d ≠ none) : c ≠ d := by
      rintro rfl
      exact hd hletter
    have hvalid := c.valid
    simp only [UInt32.isValidChar, Nat.isValidChar] at hvalid
    have htoNat : c.toNat = c.val.toNat := rfl
    by_cases hraw : ((0x20 ≤ c.toNat && c.toNat ≤ 0x7E) ||
        (0xA0 ≤ c.toNat && c.toNat ≤ 0xFFFD && c.toNat ≠ 0xFEFF)) = true
    · have hbom : c ≠ '\uFEFF' := by
        rintro rfl
        exact absurd hraw (by decide)
      have hn := hne (d := '\n') (by decide)
      have hr := hne (d := '\r') (by decide)
      have hnel := hne (d := '\x85') (by decide)
      have hls := hne (d := '\u2028') (by decide)
      have hps := hne (d := '\u2029') (by decide)
      refine Or.inl ⟨by simp only [escaped, hletter, if_pos hraw], hne (by decide), hne (by decide),
        hne (by decide), by simp [isStraight, isBreak, hn, hr, hnel, hls, hps, hbom], ?_⟩
      simp only [Bool.or_eq_true, Bool.and_eq_true, decide_eq_true_eq] at hraw
      simp only [isAllowed, Bool.or_eq_true, Bool.and_eq_true, decide_eq_true_eq]
      omega
    by_cases h2 : c.toNat ≤ 0xFF
    · exact .inr <| hasCode_number 'x' 2 (by decide) (by decide) ⟨by decide, by omega⟩
        (by simp only [escaped, hletter, if_neg hraw, if_pos h2])
    by_cases h4 : c.toNat ≤ 0xFFFF
    · exact .inr <| hasCode_number 'u' 4 (by decide) (by decide) ⟨by decide, by omega⟩
        (by simp only [escaped, hletter, if_neg hraw, if_neg h2, if_pos h4])
    · exact .inr <| hasCode_number 'U' 8 (by decide) (by decide) ⟨by decide, by omega⟩
        (by simp only [escaped, hletter, if_neg hraw, if_neg h2, if_neg h4])

theorem escaped_space : escaped ' ' = [' '] := rfl

theorem flatMap_escaped_spaces (m : Nat) (cs : List Char) :
    (List.replicate m ' ' ++ cs).flatMap escaped = List.replicate m ' ' ++ cs.flatMap escaped := by
  induction m with
  | zero => rfl
  | succ m ih =>
    rw [List.replicate_succ, List.cons_append, List.flatMap_cons, ih, escaped_space]
    rfl

theorem isBreak_of_straight {c : Char} (h : isStraight c = true) : isBreak c = false := by
  simp only [isStraight, Bool.and_eq_true, Bool.not_eq_true'] at h
  exact h.1

/-- The text between quotation marks begins as the scalar does, with an escape or with the closing
mark. -/
theorem exists_escaped_head {cs tail : List Char} (hs : cs.head?.all fun c => !decide (c = ' ')) :
    ∃ x rest, cs.flatMap escaped ++ '"' :: tail = x :: rest ∧ Cursor.isBlank x = false ∧
      isBreak x = false := by
  cases cs with
  | nil => exact ⟨'"', tail, rfl, by decide, by decide⟩
  | cons c cs =>
    have hspace : c ≠ ' ' := by simpa using hs
    rw [List.flatMap_cons]
    rcases escaped_cases c with ⟨he, -, -, htab, hstraight, -⟩ | ⟨code, he, -, -⟩
    · rw [he]
      exact ⟨c, _, rfl, by simp [Cursor.isBlank, hspace, htab], isBreak_of_straight hstraight⟩
    · rw [he]
      exact ⟨'\\', _, rfl, by decide, by decide⟩

end ScalarText

namespace Cursor

/-- What stands between quotation marks, before some text, is read as the text that it was made from. -/
def ReadsDouble (tail cs : List Char) : Prop :=
  ∀ c : Cursor, c.rest = cs.flatMap ScalarText.escaped ++ '"' :: tail →
    c.quotedRest true = .ok (cs, c.advance ((cs.flatMap ScalarText.escaped).length + 1))

namespace ReadsDouble

variable {tail cs : List Char}

theorem char {x : Char} (hspace : x ≠ ' ') (ih : ReadsDouble tail cs) : ReadsDouble tail (x :: cs) := by
  intro c hc
  rw [List.flatMap_cons] at hc ⊢
  rcases ScalarText.escaped_cases x with ⟨he, hquote, hslash, htab, hstraight, -⟩ | ⟨code, he, -, hescape⟩
  · rw [he] at hc ⊢
    have hblank : isBlank x = false := by simp [isBlank, htab, hspace]
    have hmark : x ≠ quoteMark true := hquote
    rw [quotedRest_char hc hblank (ScalarText.isBreak_of_straight hstraight) hmark (fun _ => hslash)
      (ih _ (advance_rest_append (w := [x]) hc))]
    rfl
  · rw [he] at hc ⊢
    have hn : c.next.rest = code ++ (cs.flatMap ScalarText.escaped ++ '"' :: tail) := by
      rw [← List.append_assoc]
      exact advance_rest_append (w := ['\\']) hc
    have hlt : (c.next.advance code.length).rest.length < c.rest.length := by
      have := advance_le c.next code.length
      have := next_lt hc
      omega
    have hnext : c.next = c.advance 1 := rfl
    rw [quotedRest_escape hc (hescape c.next _ hn) hlt (ih _ (advance_rest_append hn)), hnext, advance_advance,
      advance_advance]
    refine congrArg (fun m => Except.ok (x :: cs, c.advance m)) ?_
    simp only [List.length_append, List.length_cons]
    omega

theorem spaces {k : Nat} (hhead : cs.head?.all fun d => !decide (d = ' ')) (ih : ReadsDouble tail cs) :
    ReadsDouble tail (List.replicate (k + 1) ' ' ++ cs) := by
  intro c hc
  rw [ScalarText.flatMap_escaped_spaces] at hc ⊢
  rw [List.append_assoc] at hc
  obtain ⟨y, rest, heq, hy, hyb⟩ := @ScalarText.exists_escaped_head _ tail hhead
  rw [quotedRest_spaces hc heq hy hyb ih, List.length_append, List.length_replicate, ← Nat.add_assoc]

end ReadsDouble

/-- What stands between quotation marks is read as the text that it was made from. -/
theorem quotedRest_double (cs tail : List Char) : ReadsDouble tail cs := by
  induction cs using runs_induction (· = ' ') (fun _ => false) with
  | nil => exact fun c hc => quotedRest_close hc fun h => absurd h.symm Bool.false_ne_true
  | char x cs hspace _ ih => exact .char (of_decide_eq_false hspace) ih
  | first x run cs hrun hhead ih =>
    have hspaces : x :: run = List.replicate (run.length + 1) ' ' :=
      List.eq_replicate_iff.2 ⟨rfl, fun d hd => of_decide_eq_true (List.all_eq_true.1 hrun d hd)⟩
    rw [hspaces]
    exact .spaces hhead ih
  | second x run cs hrun _ _ => exact absurd (List.all_eq_true.1 hrun x (by simp)) Bool.false_ne_true

end Cursor

end PipelineTemplate.Yaml
