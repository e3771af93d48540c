import PipelineTemplate.Yaml.Token.Stream

/-!
# Moving through written text

Where a cursor is after the words, the blanks and the line feeds of a text, and what is skipped before
the next token.
-/

namespace PipelineTemplate.Yaml

/-- The characters that take one column of their line. -/
def isStraight (c : Char) : Bool := !isBreak c && c ≠ '\uFEFF'

/-- A text whose first character is no blank, comment or break, or that is empty. -/
def Begins (cs : List Char) : Prop :=
  cs.head?.all fun c => isStraight c && c ≠ ' ' && c ≠ '#'

theorem begins_nil : Begins [] := rfl

/-- What is checked of each element of a list holds of all of them. -/
theorem forall_mem_of_all {α : Type} {p : α → Prop} [DecidablePred p] {xs : List α}
    (h : (xs.all fun x => decide (p x)) = true) : ∀ x ∈ xs, p x :=
  fun x hx => of_decide_eq_true (List.all_eq_true.1 h x hx)

theorem begins_cons {c : Char} {cs : List Char} :
    Begins (c :: cs) ↔ isStraight c = true ∧ c ≠ ' ' ∧ c ≠ '#' := by
  simp [Begins, and_assoc]

namespace Cursor

theorem eq_of_rest {c : Cursor} {rest : List Char} (h : c.rest = rest) :
    c = ⟨rest, c.index, c.line, c.column⟩ := by
  cases h
  rfl

theorem next_straight {c : Char} (h : isStraight c = true) (rest : List Char) (i l k : Nat) :
    next ⟨c :: rest, i, l, k⟩ = ⟨rest, i + 1, l, k + 1⟩ := by
  simp only [isStraight, Bool.and_eq_true, Bool.not_eq_true', decide_eq_true_eq] at h
  simp [next, h.1, h.2]

theorem lineBreak_newline (rest : List Char) (i l k : Nat) :
    lineBreak ⟨'\n' :: rest, i, l, k⟩ = (['\n'], ⟨rest, i + 1, l + 1, 0⟩) := rfl

theorem advance_straight {w : List Char} (h : w.all isStraight = true) (rest : List Char) (i l k : Nat) :
    advance ⟨w ++ rest, i, l, k⟩ w.length = ⟨rest, i + w.length, l, k + w.length⟩ := by
  induction w generalizing i k with
  | nil => rfl
  | cons c w ih =>
    rw [List.all_cons, Bool.and_eq_true] at h
    rw [List.cons_append, List.length_cons, advance, next_straight h.1, ih h.2]
    congr 1 <;> omega

theorem advance_advance (c : Cursor) (m n : Nat) : (c.advance m).advance n = c.advance (m + n) := by
  induction m generalizing c with
  | zero => rw [Nat.zero_add, advance]
  | succ m ih => rw [Nat.succ_add, advance, advance, ih]

theorem next_rest (c : Cursor) : c.next.rest = c.rest.tail := by
  unfold next
  split
  · next h => rw [h]; rfl
  · next h => split <;> simp [h]

theorem advance_rest (c : Cursor) (n : Nat) : (c.advance n).rest = c.rest.drop n := by
  induction n generalizing c with
  | zero => rfl
  | succ n ih => rw [advance, ih, next_rest, List.drop_tail]

theorem advance_rest_append {c : Cursor} {w rest : List Char} (h : c.rest = w ++ rest) :
    (c.advance w.length).rest = rest := by
  rw [advance_rest, h, List.drop_left]

theorem word_eq {test : Char → Bool} {w rest : List Char} (hw : w.all test = true)
    (hr : rest.head?.all fun c => !test c) (i l k : Nat) : word ⟨w ++ rest, i, l, k⟩ test = w := by
  rw [word, List.takeWhile_append_of_pos fun c hc => List.all_eq_true.1 hw c hc]
  cases rest with
  | nil => simp
  | cons c rest =>
    have hc : test c = false := by simpa using hr
    simp [hc]

/-- The place behind a word. -/
theorem skip_eq {test : Char → Bool} {w rest : List Char} (hs : w.all isStraight = true)
    (hw : w.all test = true) (hr : rest.head?.all fun c => !test c) (i l k : Nat) :
    skip ⟨w ++ rest, i, l, k⟩ test = ⟨rest, i + w.length, l, k + w.length⟩ := by
  rw [skip, word_eq hw hr, advance_straight hs]

theorem all_spaces {test : Char → Bool} (h : test ' ' = true) (n : Nat) :
    (List.replicate n ' ').all test = true := by
  rw [List.all_eq_true]
  intro c hc
  rw [List.eq_of_mem_replicate hc]
  exact h

/-- A text that does not begin with a space. -/
def NoSpaceFirst (cs : List Char) : Prop := cs.head?.all fun c => c ≠ ' '

theorem NoSpaceFirst.of_begins {cs : List Char} (h : Begins cs) : NoSpaceFirst cs := by
  cases cs with
  | nil => rfl
  | cons c cs => simp [NoSpaceFirst, (begins_cons.1 h).2.1]

theorem skipSpaces_eq {rest : List Char} (n : Nat) (h : NoSpaceFirst rest) (i l k : Nat) :
    skipSpaces ⟨List.replicate n ' ' ++ rest, i, l, k⟩ = ⟨rest, i + n, l, k + n⟩ := by
  have hr : rest.head?.all fun c => !decide (c = ' ') := by simpa [NoSpaceFirst] using h
  have hs := skip_eq (all_spaces (by decide) n) (all_spaces (by decide) n) hr i l k
  rw [List.length_replicate] at hs
  exact hs

theorem lineBreak_begins {cs : List Char} (h : Begins cs) (i l k : Nat) :
    lineBreak ⟨cs, i, l, k⟩ = ([], ⟨cs, i, l, k⟩) := by
  unfold lineBreak
  cases cs with
  | nil => rfl
  | cons c cs =>
    have hb := (begins_cons.1 h).1
    split <;> rename_i heq <;> first | rfl | (cases heq; exact absurd hb (by decide))

end Cursor

namespace Reader

variable {r : Reader} {i l k : Nat} {rest : List Char}

/-- On the way to the next token of a line spaces are skipped. -/
theorem skipToToken_spaces {n : Nat} (hc : r.cursor = ⟨List.replicate n ' ' ++ rest, i, l, k⟩)
    (h : Begins rest) : r.skipToToken = { r with cursor := ⟨rest, i + n, l, k + n⟩ } := by
  have hbom : (r.cursor.index = 0 && r.cursor.isAt '\uFEFF') = false := by
    rw [hc]
    cases n with
    | zero =>
      cases rest with
      | nil => simp [Cursor.isAt, Cursor.peek]
      | cons c rest =>
        have hne : c ≠ '\uFEFF' := by
          rintro rfl
          exact absurd (begins_cons.1 h).1 (by decide)
        simp [Cursor.isAt, Cursor.peek, hne]
    | succ n => simp [Cursor.isAt, Cursor.peek, List.replicate_succ]
  have hspaces : r.cursor.skipSpaces = ⟨rest, i + n, l, k + n⟩ := by
    rw [hc]
    exact Cursor.skipSpaces_eq n (Cursor.NoSpaceFirst.of_begins h) i l k
  have hcomment : Cursor.isAt ⟨rest, i + n, l, k + n⟩ '#' = false := by
    cases rest with
    | nil => rfl
    | cons c rest => simp [Cursor.isAt, Cursor.peek, (begins_cons.1 h).2.2]
  have hbreak := Cursor.lineBreak_begins h (i + n) l (k + n)
  rw [skipToToken]
  simp only [hbom, Bool.false_eq_true, if_false, hspaces, hcomment, hbreak, Nat.lt_irrefl, false_and,
    dif_neg, not_false_eq_true]

/-- At the first character of a token nothing is skipped. -/
theorem skipToToken_begins (hc : r.cursor = ⟨rest, i, l, k⟩) (h : Begins rest) : r.skipToToken = r := by
  have hskip := skipToToken_spaces (n := 0) hc h
  obtain ⟨cursor, tokens, depth, keyAllowed, candidates, indent, outer, ended⟩ := r
  cases hc
  exact hskip

/-- At the end of a line the next token is that of the next line, where a key may begin. -/
theorem skipToToken_newline {n : Nat} (hc : r.cursor = ⟨'\n' :: (List.replicate n ' ' ++ rest), i, l, k⟩)
    (h : Begins rest) (hflow : r.depth = 0) :
    r.skipToToken = { r with cursor := ⟨rest, i + 1 + n, l + 1, n⟩, keyAllowed := true } := by
  have hbom : (r.cursor.index = 0 && r.cursor.isAt '\uFEFF') = false := by
    rw [hc]
    simp [Cursor.isAt, Cursor.peek]
  have hspaces : r.cursor.skipSpaces = r.cursor := by
    rw [hc]
    rfl
  have hcomment : r.cursor.isAt '#' = false := by
    rw [hc]
    simp [Cursor.isAt, Cursor.peek]
  have hbreak : r.cursor.lineBreak.2 = ⟨List.replicate n ' ' ++ rest, i + 1, l + 1, 0⟩ := by
    rw [hc, Cursor.lineBreak_newline]
  have hlt : (List.replicate n ' ' ++ rest).length < r.cursor.rest.length := by
    rw [hc, List.length_cons]
    exact Nat.lt_succ_self _
  have hnext := @skipToToken_spaces { r with
      cursor := ⟨List.replicate n ' ' ++ rest, i + 1, l + 1, 0⟩
      keyAllowed := r.keyAllowed || !r.inFlow } (i + 1) (l + 1) 0 rest n rfl h
  rw [skipToToken]
  simp only [hbom, Bool.false_eq_true, if_false, hspaces, hcomment, hbreak, hlt, and_self, dif_pos]
  rw [hnext]
  simp [inFlow, hflow]

end Reader

end PipelineTemplate.Yaml
