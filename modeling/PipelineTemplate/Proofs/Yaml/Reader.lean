import Mathlib.Data.List.TakeWhile
import Mathlib.Data.List.TakeDrop
import Mathlib.Data.List.TakeWhile
import Mathlib.Logic.Relation
import PipelineTemplate.Proofs.Yaml.Scalar.Plain
import PipelineTemplate.Proofs.Yaml.Scalar.Block

/-!
# From token to token

A text in block style is followed from the first character of one token to that of the next. What
matters of the reader there is the text that is left, the column, the columns of the open collections
and the tokens so far; a collection ends where the next token stands to the left of it.
-/

namespace PipelineTemplate.Yaml

namespace Reader

/-- The reader at the next token, after the collections that end before it. -/
def arrive (r : Reader) : Except Fault Reader := do
  let q ← r.skipToToken.dropStale
  return q.unwind q.cursor.column

theorem step_eq (r : Reader) : r.step = (do
    let a ← r.arrive
    let s ← a.readToken
    if s.ended then return s else s.dropStale) := by
  rw [step, arrive]
  cases r.skipToToken.dropStale <;> rfl

/-- From one token to the next. -/
inductive Moves (a b : Reader) : Prop
  | intro {s t : Reader} (reads : a.readToken = .ok s) (running : s.ended = false)
      (fresh : s.dropStale = .ok t) (arrives : t.arrive = .ok b)
      (shorter : t.cursor.rest.length < a.cursor.rest.length)

/-- Several tokens further on. -/
abbrev Runs : Reader → Reader → Prop := Relation.ReflTransGen Moves

/-! ## The text that is left -/

theorem skipToToken_le (r : Reader) : r.skipToToken.cursor.rest.length ≤ r.cursor.rest.length := by
  induction h : r.cursor.rest.length using Nat.strongRecOn generalizing r with
  | ind n ih =>
    have hbom : (if r.cursor.index = 0 && r.cursor.isAt '\uFEFF' then r.cursor.next
        else r.cursor).rest.length ≤ n := by
      rw [← h]
      split
      · rw [Cursor.next_length]
        omega
      · exact Nat.le_refl _
    rw [skipToToken]
    generalize (if r.cursor.index = 0 && r.cursor.isAt '\uFEFF' then r.cursor.next
      else r.cursor) = c at hbom ⊢
    have hcomment : (if c.skipSpaces.isAt '#' then c.skipSpaces.skip (!isBreak ·)
        else c.skipSpaces).rest.length ≤ n := by
      have hspaces : c.skipSpaces.rest.length ≤ n := Nat.le_trans (Cursor.advance_le c _) hbom
      split
      · exact Nat.le_trans (Cursor.advance_le _ _) hspaces
      · exact hspaces
    generalize (if c.skipSpaces.isAt '#' then c.skipSpaces.skip (!isBreak ·) else c.skipSpaces) = e at hcomment ⊢
    by_cases hlt : e.lineBreak.2.rest.length < e.rest.length ∧
        e.lineBreak.2.rest.length < r.cursor.rest.length
    · rw [dif_pos hlt]
      rw [h] at hlt
      exact Nat.le_trans (ih _ hlt.2 _ rfl) (Nat.le_of_lt hlt.2)
    · rw [dif_neg hlt]
      exact hcomment

theorem dropStale_cursor {r s : Reader} (h : r.dropStale = .ok s) : s.cursor = r.cursor := by
  rw [dropStale] at h
  split at h
  · cases h
  · cases h
    rfl

theorem unwind_cursor (r : Reader) (column : Int) : (r.unwind column).cursor = r.cursor := by
  rw [unwind]
  split <;> rfl

theorem arrive_le {r a : Reader} (h : r.arrive = .ok a) : a.cursor.rest.length ≤ r.cursor.rest.length := by
  rw [arrive] at h
  cases hq : r.skipToToken.dropStale with
  | error e => simp [hq, bind, Except.bind] at h
  | ok q =>
    simp only [hq, bind, Except.bind, pure, Except.pure, Except.ok.injEq] at h
    rw [← h, unwind_cursor, dropStale_cursor hq]
    exact skipToToken_le r

/-- All tokens of a text are those of the rest of it. -/
theorem readAll_runs {r a b : Reader} (ha : r.arrive = .ok a) (h : Runs a b) :
    ∃ t, t.arrive = .ok b ∧ readAll r = readAll t := by
  induction h with
  | refl => exact ⟨r, ha, rfl⟩
  | tail _ hmove ih =>
    obtain ⟨t, ht, hr⟩ := ih
    obtain ⟨hreads, hrunning, hfresh, harrives, hshorter⟩ := hmove
    rename_i s u
    refine ⟨u, harrives, hr.trans ?_⟩
    have hstep : t.step = .ok u := by
      rw [step_eq]
      simp only [ht, hreads, hrunning, bind, Except.bind, Bool.false_eq_true, if_false, hfresh]
    have hended : u.ended = false := by
      rw [dropStale] at hfresh
      split at hfresh
      · cases hfresh
      · cases hfresh
        exact hrunning
    have hlt : u.cursor.rest.length < t.cursor.rest.length := Nat.lt_of_lt_of_le hshorter (arrive_le ht)
    rw [readAll, hstep]
    simp only [hended, Bool.false_eq_true, if_false, hlt, dif_pos]

/-! ## Candidates -/

theorem dropStale_nil {r : Reader} (h : r.candidates = []) : r.dropStale = .ok r := by
  obtain ⟨cursor, tokens, depth, keyAllowed, candidates, indent, outer, ended⟩ := r
  subst h
  rfl

/-- Candidates that need not become keys are given up when their line is over. -/
theorem dropStale_old {r : Reader}
    (h : ∀ p ∈ r.candidates, p.2.required = false ∧ p.2.cursor.line < r.cursor.line) :
    r.dropStale = .ok { r with candidates := [] } := by
  have hrequired : (r.candidates.any fun p => (p.2.cursor.line != r.cursor.line ||
      decide (1024 < r.cursor.index - p.2.cursor.index)) && p.2.required) = false := by
    rw [List.any_eq_false]
    intro p hp
    simp [(h p hp).1]
  have hfilter : (r.candidates.filter fun p => !(p.2.cursor.line != r.cursor.line ||
      decide (1024 < r.cursor.index - p.2.cursor.index))) = [] := by
    rw [List.filter_eq_nil_iff]
    intro p hp
    have := (h p hp).2
    have hne : p.2.cursor.line ≠ r.cursor.line := by omega
    simp [hne]
  rw [dropStale]
  simp only [hrequired, Bool.false_eq_true, if_false, hfilter]

/-- A candidate on the same line is kept as long as the colon is not too far away. -/
theorem dropStale_fresh {r : Reader} {p : Int × Candidate} (hc : r.candidates = [p])
    (hl : p.2.cursor.line = r.cursor.line) (hi : r.cursor.index ≤ p.2.cursor.index + 1024) :
    r.dropStale = .ok r := by
  have hstale : (p.2.cursor.line != r.cursor.line ||
      decide (1024 < r.cursor.index - p.2.cursor.index)) = false := by
    rw [hl, bne_self_eq_false, Bool.false_or, decide_eq_false_iff_not]
    omega
  obtain ⟨cursor, tokens, depth, keyAllowed, candidates, indent, outer, ended⟩ := r
  subst hc
  rw [dropStale]
  simp only [List.any_cons, List.any_nil, hstale, Bool.false_and, Bool.or_false, Bool.false_eq_true, if_false,
    List.filter_cons, List.filter_nil, Bool.not_false, if_true]

theorem dropStale_loose {r : Reader} (h : ∀ p ∈ r.candidates, p.2.required = false) :
    ∃ ks, (∀ p ∈ ks, p ∈ r.candidates) ∧ r.dropStale = .ok { r with candidates := ks } := by
  have hrequired : (r.candidates.any fun p => (p.2.cursor.line != r.cursor.line ||
      decide (1024 < r.cursor.index - p.2.cursor.index)) && p.2.required) = false := by
    rw [List.any_eq_false]
    intro p hp
    simp [h p hp]
  rw [dropStale]
  simp only [hrequired, Bool.false_eq_true, if_false]
  exact ⟨_, fun p hp => List.mem_of_mem_filter hp, rfl⟩

/-! ## Standing at a token -/

/-- The ends of the collections to the right of a column. -/
def blockEnds (column : Nat) (indents : List Int) : List Token :=
  List.replicate (indents.takeWhile fun i => (column : Int) < i).length (.mark .blockEnd)

/-- The collections that are still open at a column. -/
def openAt (column : Nat) (indents : List Int) : List Int :=
  indents.dropWhile fun i => (column : Int) < i

@[simp] theorem blockEnds_of_le {column : Nat} {i : Int} {indents : List Int} (h : i ≤ column) :
    blockEnds column (i :: indents) = [] := by
  rw [blockEnds, List.takeWhile_cons_of_neg (by simpa using h)]
  rfl

@[simp] theorem openAt_of_le {column : Nat} {i : Int} {indents : List Int} (h : i ≤ column) :
    openAt column (i :: indents) = i :: indents := by
  rw [openAt, List.dropWhile_cons_of_neg (by simpa using h)]

@[simp] theorem blockEnds_of_lt {column n : Nat} {indents : List Int} (h : column < n) :
    blockEnds column ((n : Int) :: indents) = blockEnds column indents ++ [.mark .blockEnd] := by
  rw [blockEnds, List.takeWhile_cons_of_pos (by simpa using h), List.length_cons, List.replicate_succ']
  rfl

@[simp] theorem openAt_of_lt {column n : Nat} {indents : List Int} (h : column < n) :
    openAt column ((n : Int) :: indents) = openAt column indents := by
  rw [openAt, List.dropWhile_cons_of_pos (by simpa using h)]
  rfl

/-- Nothing ends to the right of the innermost collection. -/
theorem unwind_right {r : Reader} {column : Nat} (h : r.indent ≤ column) : r.unwind column = r := by
  have hspan : (r.indent :: r.outer).span ((column : Int) < ·) = ([], r.indent :: r.outer) := by
    rw [List.span_eq_takeWhile_dropWhile, List.takeWhile_cons_of_neg (by simpa using h),
      List.dropWhile_cons_of_neg (by simpa using h)]
  rw [unwind, hspan]
  simp

/-- The reader stands at a text and a column, outside of brackets, with the columns of the collections
around it and the tokens so far, both from the innermost or last one on. The outermost column stands for
the document. -/
structure Stands (r : Reader) (rest : List Char) (column : Nat) (indents : List Int) (tokens : List Token)
    (keyAllowed : Bool) : Prop where
  text : r.cursor.rest = rest
  place : r.cursor.column = column
  blocks : r.indent :: r.outer = indents
  read : r.tokens.map Lexeme.token = tokens
  outside : r.depth = 0
  mayBegin : r.keyAllowed = keyAllowed
  noCandidates : r.candidates = []
  running : r.ended = false
  document : (-1 : Int) ∈ indents

section

variable {r q : Reader} {rest : List Char} {column : Nat} {indents : List Int} {toks : List Token} {ka : Bool}

theorem Stands.unwind (h : Stands q rest column indents toks ka) :
    Stands (q.unwind q.cursor.column) rest column (openAt column indents)
      (blockEnds column indents ++ toks) ka := by
  have hflow : q.inFlow = false := by simp [inFlow, h.outside]
  have hspan : (q.indent :: q.outer).span ((q.cursor.column : Int) < ·) =
      ((q.indent :: q.outer).takeWhile (fun i => (column : Int) < i), openAt column indents) := by
    rw [List.span_eq_takeWhile_dropWhile, h.place, h.blocks]
    rfl
  have hopen : (-1 : Int) ∈ openAt column indents := by
    have := h.document
    rw [← List.takeWhile_append_dropWhile (p := fun i => decide ((column : Int) < i)) (l := indents),
      List.mem_append] at this
    rcases this with hm | hm
    · have := List.mem_takeWhile_imp hm
      simp at this
      omega
    · exact hm
  obtain ⟨i, is, hi⟩ := List.exists_cons_of_ne_nil (List.ne_nil_of_mem hopen)
  rw [Reader.unwind]
  simp only [hflow, Bool.false_eq_true, if_false, hspan]
  constructor
  · exact h.text
  · exact h.place
  · simp [hi]
  · simp [h.read, blockEnds, h.blocks]
  · exact h.outside
  · exact h.mayBegin
  · exact h.noCandidates
  · exact h.running
  · exact hopen

/-- Candidates that need not become keys and do not stand further down. -/
def Loose (r : Reader) (line : Nat) : Prop :=
  ∀ p ∈ r.candidates, p.2.required = false ∧ p.2.cursor.line ≤ line

theorem Loose.of_nil (h : r.candidates = []) (line : Nat) : r.Loose line := by
  intro p hp
  rw [h] at hp
  cases hp

/-- What a reader reaches that has passed the end of a line. -/
theorem arrive_stands {t : Reader} (hskip : t.skipToToken = q) (hold : ∀ p ∈ q.candidates,
      p.2.required = false ∧ p.2.cursor.line < q.cursor.line)
    (h : Stands { q with candidates := [] } rest column indents toks ka) :
    ∃ b, t.arrive = .ok b ∧
      Stands b rest column (openAt column indents) (blockEnds column indents ++ toks) ka := by
  refine ⟨_, ?_, h.unwind⟩
  rw [arrive, hskip, dropStale_old hold]
  rfl

/-- After a token and a space comes the next token of the line. -/
theorem moves_space {a s : Reader} (hread : a.readToken = .ok s)
    (h : Stands s (' ' :: rest) column indents toks ka) (hrest : Begins rest)
    (hlt : rest.length + 1 < a.cursor.rest.length) :
    ∃ b, Moves a b ∧ Stands b rest (column + 1) (openAt (column + 1) indents)
      (blockEnds (column + 1) indents ++ toks) ka := by
  have hcursor : s.cursor = ⟨List.replicate 1 ' ' ++ rest, s.cursor.index, s.cursor.line, column⟩ := by
    rw [← h.place]
    exact Cursor.eq_of_rest h.text
  have hskip := skipToToken_spaces hcursor hrest
  obtain ⟨b, hb, hstands⟩ := @arrive_stands _ rest (column + 1) _ _ _ _ hskip
    (fun p hp => by rw [show _ = [] from h.noCandidates] at hp; cases hp)
    ⟨rfl, rfl, h.blocks, h.read, h.outside, h.mayBegin, rfl, h.running, h.document⟩
  refine ⟨b, ⟨hread, h.running, dropStale_nil h.noCandidates, hb, ?_⟩, hstands⟩
  rw [h.text]
  exact hlt

/-- After a token that ends with its line the next one is that of the next line. -/
theorem moves_newline {a s : Reader} {n i l k line : Nat} (hread : a.readToken = .ok s)
    (hs : s.cursor = ⟨'\n' :: (List.replicate n ' ' ++ rest), i, l, k⟩) (hrest : Begins rest)
    (hloose : s.Loose line) (hline : line ≤ l)
    (h : Stands { s with candidates := [], cursor := ⟨rest, i + 1 + n, l + 1, n⟩, keyAllowed := true }
      rest n indents toks true)
    (hlt : s.cursor.rest.length < a.cursor.rest.length) :
    ∃ b, Moves a b ∧ Stands b rest n (openAt n indents) (blockEnds n indents ++ toks) true := by
  obtain ⟨ks, hks, hfresh⟩ := dropStale_loose fun p hp => (hloose p hp).1
  have hskip := skipToToken_newline (r := { s with candidates := ks }) hs hrest h.outside
  obtain ⟨b, hb, hstands⟩ := arrive_stands hskip
    (fun p hp => ⟨(hloose p (hks p hp)).1, Nat.lt_succ_of_le (Nat.le_trans (hloose p (hks p hp)).2 hline)⟩) h
  exact ⟨b, ⟨hread, h.running, hfresh, hb, hlt⟩, hstands⟩

/-- A token after which the reader has passed the end of the line already. -/
theorem moves_passed {a s : Reader} {n i l line : Nat} (hread : a.readToken = .ok s)
    (hs : s.cursor = ⟨rest, i, l, n⟩) (hrest : Begins rest) (hloose : s.Loose line) (hline : line < l)
    (h : Stands { s with candidates := [] } rest n indents toks true)
    (hlt : rest.length < a.cursor.rest.length) :
    ∃ b, Moves a b ∧ Stands b rest n (openAt n indents) (blockEnds n indents ++ toks) true := by
  have hold : ∀ p ∈ s.candidates, p.2.required = false ∧ p.2.cursor.line < s.cursor.line := by
    intro p hp
    rw [hs]
    exact ⟨(hloose p hp).1, Nat.lt_of_le_of_lt (hloose p hp).2 hline⟩
  have hskip := skipToToken_begins (r := { s with candidates := [] }) hs hrest
  obtain ⟨b, hb, hstands⟩ := arrive_stands (q := { s with candidates := [] }) hskip
    (fun p hp => by cases hp) h
  refine ⟨b, ⟨hread, h.running, dropStale_old hold, hb, ?_⟩, hstands⟩
  rw [hs]
  exact hlt

end

end Reader

end PipelineTemplate.Yaml
