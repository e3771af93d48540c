import PipelineTemplate.Proofs.Yaml.Reader

/-!
# Indicators of block collections

A hyphen, a question mark or a colon before a space: the mark that it puts, the collection that it may
begin, and the token after it.
-/

namespace PipelineTemplate.Yaml

namespace Reader

/-- The columns of the open collections after an indicator at a column. -/
def opened (column : Nat) : List Int → List Int
  | i :: is => if i < column then (column : Int) :: i :: is else i :: is
  | [] => []

/-- The mark of a collection that an indicator at a column begins. -/
def opening (collection : Mark) (column : Nat) : List Int → List Token
  | i :: _ => if i < column then [.mark collection] else []
  | [] => []

theorem opened_of_lt {n : Nat} {i : Int} {is : List Int} (h : i < n) :
    opened n (i :: is) = (n : Int) :: i :: is := if_pos h

theorem opening_of_lt {m : Mark} {n : Nat} {i : Int} {is : List Int} (h : i < n) :
    opening m n (i :: is) = [.mark m] := if_pos h

theorem opened_self {n : Nat} {is : List Int} : opened n ((n : Int) :: is) = (n : Int) :: is :=
  if_neg (Int.lt_irrefl _)

theorem opening_self {m : Mark} {n : Nat} {is : List Int} : opening m n ((n : Int) :: is) = [] :=
  if_neg (Int.lt_irrefl _)

theorem openAt_opened {n k : Nat} {i : Int} {is : List Int} (hi : i ≤ n) (hk : n ≤ k) :
    openAt k (opened n (i :: is)) = opened n (i :: is) ∧ blockEnds k (opened n (i :: is)) = [] := by
  by_cases h : i < n
  · rw [opened_of_lt h]
    exact ⟨openAt_of_le (by omega), blockEnds_of_le (by omega)⟩
  · rw [opened, if_neg h]
    exact ⟨openAt_of_le (by omega), blockEnds_of_le (by omega)⟩

variable {a : Reader} {rest : List Char} {n : Nat} {i : Int} {is : List Int} {toks : List Token} {ka : Bool}

/-- What an indicator puts and opens. -/
theorem putBlockIndicator_stands {c : Char} {more : List Char} (hc : isStraight c = true)
    (h : Stands a (c :: more) n (i :: is) toks true) (collection entry : Mark) (keyFollows : Bool) :
    ∃ s, a.putBlockIndicator collection entry keyFollows = .ok s ∧
      Stands s more (n + 1) (opened n (i :: is))
        (.mark entry :: opening collection n (i :: is) ++ toks) keyFollows := by
  obtain ⟨⟨text, index, line, column⟩, tokens, depth, keyAllowed, candidates, indent, outer, ended⟩ := a
  obtain ⟨htext, hplace, hblocks, hread, houtside, hmay, hnone, hrunning, hdocument⟩ := h
  simp only at htext hplace hblocks hread houtside hmay hnone hrunning
  obtain ⟨rfl, rfl⟩ := List.cons.inj hblocks
  subst htext hplace houtside hmay hnone hrunning
  have hnext := Cursor.next_straight hc more index line column
  by_cases hlt : indent < column
  · refine ⟨_, by simp [putBlockIndicator, inFlow, Cursor.demand, beginsBlock, hlt, dropCandidate, pushIndent,
      putMark, put, bind, Except.bind, pure, Except.pure]; rfl, ?_⟩
    rw [opened_of_lt hlt, opening_of_lt hlt]
    constructor <;>
      simp_all [putIndicator, putWide, putMark, put, Cursor.advance]
  · refine ⟨_, by simp [putBlockIndicator, inFlow, Cursor.demand, beginsBlock, hlt, dropCandidate, bind,
      Except.bind, pure, Except.pure]; rfl, ?_⟩
    rw [opened, opening, if_neg hlt, if_neg hlt]
    constructor <;>
      simp_all [putIndicator, putWide, putMark, put, Cursor.advance]

/-- After an indicator and a space comes the token behind them. -/
theorem moves_indicator {c : Char} (hc : isStraight c = true)
    (h : Stands a (c :: ' ' :: rest) n (i :: is) toks true) (hi : i ≤ n) (hrest : Begins rest)
    {collection entry : Mark} (hread : a.readToken = a.putBlockIndicator collection entry true) :
    ∃ b, Moves a b ∧ Stands b rest (n + 2) (opened n (i :: is))
      (.mark entry :: opening collection n (i :: is) ++ toks) true := by
  obtain ⟨s, hs, hstands⟩ := putBlockIndicator_stands hc h collection entry true
  obtain ⟨hopen, hends⟩ := @openAt_opened n (n + 2) _ is hi (by omega)
  obtain ⟨b, hmove, hb⟩ := moves_space (hread.trans hs) hstands hrest (by
    rw [h.text]
    exact Nat.lt_succ_self _)
  rw [hopen, hends] at hb
  exact ⟨b, hmove, hb⟩

theorem peek_eq {c : Char} {more : List Char} (h : a.cursor.rest = c :: more) : a.cursor.peek = some c := by
  rw [Cursor.peek, h]
  rfl

theorem peekAt_one {c d : Char} {more : List Char} (h : a.cursor.rest = c :: d :: more) :
    a.cursor.peekAt 1 = some d := by
  rw [Cursor.peekAt, h]
  rfl

theorem isAt_eq {c d : Char} {more : List Char} (h : a.cursor.rest = c :: more) :
    a.cursor.isAt d = decide (c = d) := by
  rw [Cursor.isAt, peek_eq h]
  by_cases hcd : c = d <;> simp [hcd]

/-- A hyphen before a space begins an item. -/
theorem readToken_hyphen (h : Stands a ('-' :: ' ' :: rest) n (i :: is) toks ka) :
    a.readToken = a.putBlockIndicator .blockSequence .blockEntry true := by
  have hmark : a.cursor.atDocumentMark = false := by
    simp [Cursor.atDocumentMark, h.text]
  simp [readToken, peek_eq h.text, peekAt_one h.text, hmark, endsWord]

/-- A question mark before a space begins a key. -/
theorem readToken_question (h : Stands a ('?' :: ' ' :: rest) n (i :: is) toks ka) :
    a.readToken = a.putBlockIndicator .blockMapping .key true := by
  have hflow : a.inFlow = false := by simp [inFlow, h.outside]
  simp [readToken, peek_eq h.text, peekAt_one h.text, isAt_eq h.text, endsWord, hflow]

/-- A colon before a space begins the value of a key behind a question mark. -/
theorem readToken_colon (h : Stands a (':' :: ' ' :: rest) n (i :: is) toks ka) :
    a.readToken = a.putBlockIndicator .blockMapping .value true := by
  have hflow : a.inFlow = false := by simp [inFlow, h.outside]
  simp [readToken, peek_eq h.text, peekAt_one h.text, isAt_eq h.text, endsWord, hflow, putValue,
    h.noCandidates]

end Reader

end PipelineTemplate.Yaml
