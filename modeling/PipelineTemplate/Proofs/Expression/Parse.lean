import PipelineTemplate.Proofs.Expression.Acceptance
import PipelineTemplate.Proofs.Expression.Terminal
import Mathlib.Data.List.TakeWhile

/-!
# Expressions are the texts of the grammar

A text is split into the longest tokens that are spelled in it, with separators between them. Main
statement: a text is an expression exactly when what is left of it between its outer blanks splits into
tokens that have a derivation; there is one derivation then, and it prescribes the syntax tree.
-/

namespace PipelineTemplate

namespace Token

/-! ## Splitting a text -/

/-- The longest token that is spelled at the beginning of a text, and what follows it. -/
structure Leads (cs : List Char) (t : Token) (rest : List Char) : Prop where
  spelled : ∃ w, cs = w ++ rest ∧ Spells w t
  longest : ∀ w' t' rest', cs = w' ++ rest' → Spells w' t' → rest.length ≤ rest'.length

/-- A text is taken apart from its beginning into longest tokens; what stands between them and behind
them is separators. -/
inductive Splits : List Char → List Token → Prop where
  | done {blanks : List Char} (h : ∀ c ∈ blanks, isSeparator c = true) : Splits blanks []
  | token {blanks cs rest : List Char} {t : Token} {ts : List Token}
      (h : ∀ c ∈ blanks, isSeparator c = true) (first : Leads cs t rest) (later : Splits rest ts) :
      Splits (blanks ++ cs) (t :: ts)

variable {cs rest : List Char} {t : Token} {ts : List Token}

theorem read?_eq_some_iff : read? cs = some (t, rest) ↔ Leads cs t rest := by
  constructor
  · intro h
    refine ⟨of_read? h, ?_⟩
    rintro w' t' rest' rfl hw'
    obtain ⟨t'', rest'', hread, hlen⟩ := hw'.read_longest rest'
    obtain ⟨-, rfl⟩ := Prod.mk.inj (Option.some.inj (h.symm.trans hread))
    exact hlen
  · rintro ⟨⟨w, rfl, hw⟩, longest⟩
    obtain ⟨t', rest', hread, hlen⟩ := hw.read_longest rest
    obtain ⟨w', e, hw'⟩ := of_read? hread
    -- What is read and the longest token have one length, so they are one spelling.
    have hlen' := longest w' t' rest' e hw'
    obtain ⟨rfl, rfl⟩ := List.append_inj' e (Nat.le_antisymm hlen' hlen)
    have ht := hw.read_eq (r := []) (by simp [Separated])
    have ht' := hw'.read_eq (r := []) (by simp [Separated])
    rw [hread, (Prod.mk.inj (Option.some.inj (ht.symm.trans ht'))).1]

/-- A text whose first token is read splits where what follows it does. -/
theorem Splits.of_read (h : read? cs = some (t, rest)) (later : Splits rest ts) : Splits cs (t :: ts) := by
  have whole := Splits.token (List.forall_mem_nil _) (read?_eq_some_iff.1 h) later
  exact whole

/-- No separator begins a token. -/
theorem Leads.dropWhile_eq (h : Leads cs t rest) : cs.dropWhile isSeparator = cs := by
  have hread := read?_eq_some_iff.2 h
  cases cs with
  | nil => rfl
  | cons c cs =>
    refine List.dropWhile_cons_of_neg fun hc => ?_
    have hnone : read? (c :: cs) = none := by
      rcases isSeparator_iff.1 hc with rfl | rfl | rfl | rfl | rfl <;> rfl
    rw [hnone] at hread
    cases hread

theorem Leads.length_lt (h : Leads cs t rest) : rest.length < cs.length := by
  obtain ⟨⟨w, rfl, hw⟩, -⟩ := h
  have hpos := List.length_pos_iff.2 hw.ne_nil
  rw [List.length_append]
  omega

theorem lexemes_done (offset : Nat) (h : ∀ c ∈ cs, isSeparator c = true) :
    lexemes offset cs = ([], none) := by
  rw [lexemes, if_pos (List.dropWhile_eq_nil_iff.2 h)]

theorem lexemes_token (offset : Nat) {blanks : List Char} (hb : ∀ c ∈ blanks, isSeparator c = true)
    (h : Leads cs t rest) : ∃ start offset',
      lexemes offset (blanks ++ cs) =
        (⟨t, start⟩ :: (lexemes offset' rest).1, (lexemes offset' rest).2) := by
  have hdrop : (blanks ++ cs).dropWhile isSeparator = cs := by
    rw [List.dropWhile_append_of_pos hb, h.dropWhile_eq]
  have hlt := h.length_lt
  have hne : cs ≠ [] := List.ne_nil_of_length_pos (by omega)
  rw [lexemes, hdrop, if_neg hne, read?_eq_some_iff.2 h]
  dsimp only
  rw [dif_pos (by rw [List.length_append]; omega)]
  exact ⟨_, _, rfl⟩

/-- The tokens of a text are those of its splitting. -/
theorem splits_iff_lexemes (offset : Nat) :
    Splits cs ts ↔ ∃ ls, lexemes offset cs = (ls, none) ∧ ls.map Lexeme.token = ts := by
  constructor
  · intro h
    induction h generalizing offset with
    | done h => exact ⟨[], lexemes_done offset h, rfl⟩
    | token hb first later ih =>
      obtain ⟨start, offset', e⟩ := lexemes_token offset hb first
      obtain ⟨ls, hls, rfl⟩ := ih offset'
      exact ⟨_, by rw [e, hls], rfl⟩
  · rintro ⟨ls, hls, rfl⟩
    induction hn : cs.length using Nat.strongRecOn generalizing cs ls offset with
    | ind n ih =>
      have hsplit := List.takeWhile_append_dropWhile (p := isSeparator) (l := cs)
      have hblanks : ∀ c ∈ cs.takeWhile isSeparator, isSeparator c = true :=
        List.all_eq_true.1 List.all_takeWhile
      rw [← hsplit] at hls ⊢
      cases hread : read? (cs.dropWhile isSeparator) with
      | some p =>
        have first : Leads _ p.1 p.2 := read?_eq_some_iff.1 hread
        obtain ⟨start, offset', e⟩ := lexemes_token offset hblanks first
        rw [e] at hls
        obtain ⟨rfl, hstop⟩ := Prod.mk.inj hls
        have hlt := Nat.lt_of_lt_of_le first.length_lt (List.dropWhile_sublist _).length_le
        exact .token hblanks first (ih _ (hn ▸ hlt) _ _ (Prod.ext rfl hstop) rfl)
      | none =>
        rw [hsplit, lexemes, hread] at hls
        by_cases hnil : cs.dropWhile isSeparator = []
        · rw [if_pos hnil] at hls
          obtain ⟨rfl, -⟩ := Prod.mk.inj hls
          rw [hnil, List.append_nil]
          exact .done hblanks
        · rw [if_neg hnil] at hls
          cases (Prod.mk.inj hls).2

/-- A text splits in one way. -/
theorem Splits.unique {us : List Token} (h : Splits cs ts) (h' : Splits cs us) : ts = us := by
  obtain ⟨ls, hls, rfl⟩ := (splits_iff_lexemes 0).1 h
  obtain ⟨ls', hls', rfl⟩ := (splits_iff_lexemes 0).1 h'
  rw [(Prod.mk.inj (hls.symm.trans hls')).1]

end Token

namespace Expr

/-- A text is an expression when its tokens go to its end and are all read. -/
theorem parse_eq_ok_iff {text : String} {e : Expr} :
    Expr.parse text = .ok e ↔ ∃ ls, Token.lexemes 0 (Text.trim text.toList) = (ls, none) ∧
      Reading.expression ls = some (e, []) := by
  unfold Expr.parse
  by_cases hcs : Text.trim text.toList = []
  · rw [hcs]
    constructor
    · intro h
      cases h
    · rintro ⟨ls, hls, h⟩
      rw [Token.lexemes_done 0 (List.forall_mem_nil _)] at hls
      obtain ⟨rfl, -⟩ := Prod.mk.inj hls
      cases Reading.length_expression h
  simp only [hcs, if_false]
  obtain ⟨ls, stop⟩ := Token.lexemes 0 (Text.trim text.toList)
  simp only [Reading.expression, Prod.mk.injEq]
  constructor
  · intro h
    split at h
    · cases h
    · cases h
    · cases h
    · rename_i e' _ hread
      cases stop with
      | some offset => cases h
      | none =>
        cases h
        exact ⟨ls, ⟨rfl, rfl⟩, by rw [hread]; rfl⟩
  · rintro ⟨ls', ⟨rfl, rfl⟩, h⟩
    cases hread : Expr.expression ls with
    | error => rw [hread] at h; cases h
    | ok r =>
      obtain ⟨e', rest, hrest⟩ := r
      rw [hread] at h
      cases h
      rfl

theorem parse_eq_ok_iff_splits {text : String} {e : Expr} :
    Expr.parse text = .ok e ↔
      ∃ p : Phrase (.layer .conditional), Token.Splits (Text.trim text.toList) p.tokens ∧ p.tree = e := by
  rw [parse_eq_ok_iff]
  constructor
  · rintro ⟨ls, hls, h⟩
    obtain ⟨p, hp, ht⟩ := Reading.expression_eq_some_iff.1 h
    exact ⟨p, (Token.splits_iff_lexemes 0).2 ⟨ls, hls, hp.symm⟩, ht⟩
  · rintro ⟨p, hp, ht⟩
    obtain ⟨ls, hls, htokens⟩ := (Token.splits_iff_lexemes 0).1 hp
    exact ⟨ls, hls, Reading.expression_eq_some_iff.2 ⟨p, htokens.symm, ht⟩⟩

/-- A text is an expression exactly when, trimmed, it splits into longest tokens that have a derivation
from the lowest layer of the grammar. The derivation is the only one, and the syntax tree is the one
that it prescribes; without a derivation there is a syntax error. -/
theorem parse_iff_derivation (text : String) :
    (∀ e, Expr.parse text = .ok e ↔
      ∃ p : Phrase (.layer .conditional), Token.Splits (Text.trim text.toList) p.tokens ∧ p.tree = e ∧
        ∀ q : Phrase (.layer .conditional), Token.Splits (Text.trim text.toList) q.tokens → q = p) ∧
    ((∃ err, Expr.parse text = .error err) ↔
      ∀ p : Phrase (.layer .conditional), ¬ Token.Splits (Text.trim text.toList) p.tokens) := by
  constructor
  · intro e
    rw [parse_eq_ok_iff_splits]
    constructor
    · rintro ⟨p, hp, ht⟩
      exact ⟨p, hp, ht, fun q hq => Phrase.eq_of_tokens (hq.unique hp)⟩
    · rintro ⟨p, hp, ht, -⟩
      exact ⟨p, hp, ht⟩
  · constructor
    · rintro ⟨err, herr⟩ p hp
      rw [parse_eq_ok_iff_splits.2 ⟨p, hp, rfl⟩] at herr
      cases herr
    · intro hnone
      cases h : Expr.parse text with
      | error err => exact ⟨err, rfl⟩
      | ok e =>
        obtain ⟨p, hp, -⟩ := parse_eq_ok_iff_splits.1 h
        exact absurd hp (hnone p)

end Expr
end PipelineTemplate
