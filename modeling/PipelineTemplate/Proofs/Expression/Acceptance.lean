import PipelineTemplate.Proofs.Expression.Reading

/-!
# The readers accept the grammar

Reading the tokens of a phrase gives its tree, and whatever is read is the tree of a phrase that the
tokens before the rest spell. Main statement: the reader of expressions takes all of a sequence of
tokens exactly when the sequence has a derivation, and gives the tree that the derivation prescribes.
-/

namespace PipelineTemplate

open Token (Stops)

/-! ## Lexemes of given tokens -/

section
variable {ls : List Lexeme} {ts us : List Token} {t first last : Token}

theorem lexemes_at (h : ls.map Lexeme.token = ts ++ t :: us) :
    ∃ l i l', ls = l ++ ⟨t, i⟩ :: l' ∧ l.map Lexeme.token = ts ∧ l'.map Lexeme.token = us := by
  obtain ⟨l, l'', rfl, hl, hl''⟩ := List.map_eq_append_iff.1 h
  obtain ⟨⟨token, i⟩, l', rfl, rfl, hl'⟩ := List.map_eq_cons_iff.1 hl''
  exact ⟨l, i, l', rfl, hl, hl'⟩

theorem lexemes_enclosed (h : ls.map Lexeme.token = first :: (ts ++ [last])) :
    ∃ i l j, ls = ⟨first, i⟩ :: (l ++ [⟨last, j⟩]) ∧ l.map Lexeme.token = ts := by
  obtain ⟨⟨token, i⟩, l'', rfl, rfl, hl''⟩ := List.map_eq_cons_iff.1 h
  obtain ⟨l, j, l', rfl, hl, hl'⟩ := lexemes_at hl''
  obtain rfl := List.map_eq_nil_iff.1 hl'
  exact ⟨i, l, j, rfl, hl⟩

end

namespace Phrase

/-! ## What a phrase spells is read -/

/-- Reading the tokens of a phrase gives its tree and leaves what follows them; in a layer that is
recursive on the left it gets as far as the tree. -/
def Complete : {c : Category} → Phrase c → Prop
  | .layer .conditional, p => ∀ ls rest : List Lexeme, ls.map Lexeme.token = p.tokens →
    Stops 1 (rest.map Lexeme.token) → Reading.expression (ls ++ rest) = some (p.tree, rest)
  | .layer (.joined family), p => ∀ ls rest : List Lexeme, ls.map Lexeme.token = p.tokens →
    Stops (family.level + 3) (rest.map Lexeme.token) →
      Reading.operation family.level (ls ++ rest) = Reading.continued family.level p.tree rest
  | .layer .unary, p => ∀ ls rest : List Lexeme, ls.map Lexeme.token = p.tokens →
    Stops 9 (rest.map Lexeme.token) → Reading.unary (ls ++ rest) = some (p.tree, rest)
  | .layer .access, p => ∀ ls rest : List Lexeme, ls.map Lexeme.token = p.tokens →
    Reading.unary (ls ++ rest) = Reading.accessed p.tree rest
  | .layer .atom, p => ∀ ls rest : List Lexeme, ls.map Lexeme.token = p.tokens →
    Reading.atom (ls ++ rest) = some (p.tree, rest)
  | .arguments, p => ∀ (ls rest : List Lexeme) (closing : Mark) (i : Nat),
    ls.map Lexeme.token = p.tokens → closing = .closeParen ∨ closing = .closeBracket →
      Reading.arguments closing (ls ++ ⟨.mark closing, i⟩ :: rest) = some (p.tree, rest)
  | .someArguments, p => ∀ (ls rest : List Lexeme) (closing : Mark) (i : Nat),
    ls.map Lexeme.token = p.tokens → closing = .closeParen ∨ closing = .closeBracket →
      Reading.someArguments closing (ls ++ ⟨.mark closing, i⟩ :: rest) = some (p.tree, rest)
  | .pairs, p => ∀ (ls rest : List Lexeme) (i j : Nat), ls.map Lexeme.token = p.tokens →
    Reading.atom (⟨.mark .openBrace, i⟩ :: (ls ++ ⟨.mark .closeBrace, j⟩ :: rest)) =
      some (.object p.tree, rest)
  | .somePairs, p => ∀ (ls rest : List Lexeme) (i : Nat), ls.map Lexeme.token = p.tokens →
    Reading.pairs (ls ++ ⟨.mark .closeBrace, i⟩ :: rest) = some (p.tree, rest)

theorem operatorAt?_of_strength {family : Family} {t : Token} (h : t.strength < family.level + 2) :
    Expr.operatorAt? family.level t = none := by
  cases hmake : Expr.operatorAt? family.level t with
  | none => rfl
  | some make =>
    obtain ⟨op, rfl, rfl, -⟩ := Reading.of_operatorAt? hmake
    simp at h

theorem continued_of_stops {family : Family} (left : Expr) {rest : List Lexeme}
    (h : Stops (family.level + 2) (rest.map Lexeme.token)) :
    Reading.continued family.level left rest = some (left, rest) := by
  cases rest with
  | nil => exact Reading.continued_nil left
  | cons lexeme rest => exact Reading.continued_stop left (operatorAt?_of_strength (by simpa using h))

/-- The operands of a family are read whole. -/
theorem Complete.whole {family : Family} {p : Phrase (.layer family.operands)} (h : p.Complete)
    {ls rest : List Lexeme} (hls : ls.map Lexeme.token = p.tokens)
    (hrest : Stops (family.level + 3) (rest.map Lexeme.token)) :
    Reading.operation (family.level + 1) (ls ++ rest) = some (p.tree, rest) := by
  cases family with
  | product => exact (Reading.operation_last _).trans (h ls rest hls hrest)
  | coalesce | or | and | equality | order | sum =>
    exact (h ls rest hls (hrest.mono (Nat.le_succ _))).trans (continued_of_stops _ hrest)

theorem Complete.test {p : Phrase (.layer (.joined .coalesce))} (h : p.Complete) {ls rest : List Lexeme}
    (hls : ls.map Lexeme.token = p.tokens) (hrest : Stops 2 (rest.map Lexeme.token)) :
    Reading.operation 0 (ls ++ rest) = some (p.tree, rest) :=
  (h ls rest hls (hrest.mono (by decide))).trans
    (@continued_of_stops .coalesce _ _ hrest)

theorem Complete.operation {p : Phrase (.layer (.joined .coalesce))} (h : p.Complete) :
    (Phrase.operation p).Complete := by
  intro ls rest hls hrest
  rw [Reading.expression_eq, h.test hls (hrest.mono (by decide)), Option.bind_some]
  cases hq : Reading.expect .question rest with
  | none => rfl
  | some rest' =>
    obtain ⟨start, rfl⟩ := Reading.of_expect hq
    simp at hrest

theorem Complete.conditional {test : Phrase (.layer (.joined .coalesce))}
    {yes no : Phrase (.layer .conditional)} (htest : test.Complete) (hyes : yes.Complete)
    (hno : no.Complete) : (Phrase.conditional test yes no).Complete := by
  intro ls rest hls hrest
  obtain ⟨l₁, i, l, rfl, h₁, hl⟩ := lexemes_at hls
  obtain ⟨l₂, j, l₃, rfl, h₂, h₃⟩ := lexemes_at hl
  simp only [List.append_assoc, List.cons_append]
  rw [Reading.expression_eq, htest.test h₁ (by simp), Option.bind_some, Reading.expect_self,
    Option.elim_some, hyes l₂ _ h₂ (by simp), Option.bind_some, Reading.expect_self, Option.bind_some,
    hno l₃ rest h₃ hrest, Option.map_some]
  rfl

theorem Complete.operand {family : Family} {p : Phrase (.layer family.operands)} (h : p.Complete) :
    (Phrase.operand p).Complete := by
  intro ls rest hls hrest
  rw [Reading.operation_eq family.level_lt, h.whole hls hrest, Option.bind_some]
  rfl

theorem Complete.join {family : Family} {left : Phrase (.layer (.joined family))} {op : Connective}
    {h : op.family = family} {right : Phrase (.layer family.operands)} (hleft : left.Complete)
    (hright : right.Complete) : (Phrase.join left op h right).Complete := by
  intro ls rest hls hrest
  obtain ⟨l₁, i, l₂, rfl, h₁, h₂⟩ := lexemes_at hls
  simp only [List.append_assoc, List.cons_append]
  have hop : Expr.operatorAt? family.level op.token = some op.join := h ▸ Reading.operatorAt?_token op
  rw [hleft l₁ _ h₁ (by simp [h]), Reading.continued_operator _ hop, hright.whole h₂ hrest,
    Option.bind_some]
  rfl

theorem Complete.accessed {p : Phrase (.layer .access)} (h : p.Complete) :
    (Phrase.accessed p).Complete :=
  fun ls rest hls hrest => (h ls rest hls).trans (Reading.accessed_stop _ hrest)

theorem Complete.unary {op : UnaryOp} {p : Phrase (.layer .unary)} (h : p.Complete) :
    (Phrase.unary op p).Complete := by
  intro ls rest hls hrest
  obtain ⟨⟨token, i⟩, l, rfl, rfl, hl⟩ := List.map_eq_cons_iff.1 hls
  rw [List.cons_append, Reading.unary_sign (Reading.unaryOperator?_token op), h l rest hl hrest]
  rfl

theorem unaryOperator?_of_head {t : Token} (h : ∀ op : UnaryOp, t ≠ op.token) :
    Expr.unaryOperator? t = none := by
  cases ht : Expr.unaryOperator? t with
  | none => rfl
  | some op => exact absurd (Reading.of_unaryOperator? ht).symm (h op)

theorem Complete.atom {p : Phrase (.layer .atom)} (h : p.Complete) : (Phrase.atom p).Complete := by
  intro ls rest hls
  obtain ⟨t, ts, ht, -⟩ := p.opens nofun nofun
  have hls' : ls.map Lexeme.token = t :: ts := hls.trans ht
  obtain ⟨⟨token, i⟩, l, rfl, rfl, -⟩ := List.map_eq_cons_iff.1 hls'
  have hsign : Expr.unaryOperator? token = none := by
    refine unaryOperator?_of_head fun op e => p.head?_ne_sign (.inr rfl) op ?_
    rw [ht, List.head?_cons, e]
  rw [List.cons_append, Reading.unary_atom hsign, ← List.cons_append, h _ rest hls, Option.bind_some]
  rfl

theorem Complete.member {target : Phrase (.layer .access)} {s : String} (h : target.Complete) :
    (Phrase.member target s).Complete := by
  intro ls rest hls
  obtain ⟨l₁, i, l, rfl, h₁, hl⟩ := lexemes_at hls
  obtain ⟨j, rfl⟩ : ∃ j, l = [⟨.name s, j⟩] := by
    obtain ⟨⟨token, j⟩, l', rfl, rfl, hl'⟩ := List.map_eq_cons_iff.1 hl
    exact ⟨j, by rw [List.map_eq_nil_iff.1 hl']⟩
  simp only [List.append_assoc, List.cons_append, List.nil_append]
  rw [h l₁ _ h₁, Reading.accessed_member]
  rfl

theorem Complete.index {target : Phrase (.layer .access)} {key : Phrase (.layer .conditional)}
    (h : target.Complete) (hkey : key.Complete) : (Phrase.index target key).Complete := by
  intro ls rest hls
  obtain ⟨l₁, l, rfl, h₁, hl⟩ := List.map_eq_append_iff.1 hls
  obtain ⟨i, l₂, j, rfl, h₂⟩ := lexemes_enclosed hl
  simp only [List.append_assoc, List.cons_append, List.nil_append]
  rw [h l₁ _ h₁, Reading.accessed_index, hkey l₂ _ h₂ (by simp), Option.bind_some, Reading.expect_self,
    Option.bind_some]
  rfl

theorem Complete.call {callee : Phrase (.layer .access)} {values : Phrase .arguments}
    (h : callee.Complete) (hvalues : values.Complete) : (Phrase.call callee values).Complete := by
  intro ls rest hls
  obtain ⟨l₁, l, rfl, h₁, hl⟩ := List.map_eq_append_iff.1 hls
  obtain ⟨i, l₂, j, rfl, h₂⟩ := lexemes_enclosed hl
  simp only [List.append_assoc, List.cons_append, List.nil_append]
  rw [h l₁ _ h₁, Reading.accessed_call, hvalues l₂ rest .closeParen j h₂ (.inl rfl), Option.bind_some]
  rfl

/-- An operand of one token. -/
theorem complete_leaf {p : Phrase (.layer .atom)} {t : Token} (hp : p.tokens = [t])
    (h : ∀ i rest, Reading.atom (⟨t, i⟩ :: rest) = some (p.tree, rest)) : p.Complete := by
  intro ls rest hls
  obtain ⟨⟨token, i⟩, l, rfl, rfl, hl⟩ := List.map_eq_cons_iff.1 (hls.trans hp)
  obtain rfl := List.map_eq_nil_iff.1 hl
  exact h i rest

theorem Complete.array {elements : Phrase .arguments} (h : elements.Complete) :
    (Phrase.array elements).Complete := by
  intro ls rest hls
  obtain ⟨i, l, j, rfl, hl⟩ := lexemes_enclosed hls
  simp only [List.append_assoc, List.cons_append, List.nil_append]
  rw [Reading.atom_array, h l rest .closeBracket j hl (.inr rfl), Option.map_some]
  rfl

theorem Complete.object {entries : Phrase .pairs} (h : entries.Complete) :
    (Phrase.object entries).Complete := by
  intro ls rest hls
  obtain ⟨i, l, j, rfl, hl⟩ := lexemes_enclosed hls
  simp only [List.append_assoc, List.cons_append, List.nil_append]
  exact h l rest i j hl

theorem Complete.group {p : Phrase (.layer .conditional)} (h : p.Complete) :
    (Phrase.group p).Complete := by
  intro ls rest hls
  obtain ⟨i, l, j, rfl, hl⟩ := lexemes_enclosed hls
  simp only [List.append_assoc, List.cons_append, List.nil_append]
  rw [Reading.atom_group, h l _ hl (by simp), Option.bind_some, Reading.expect_self, Option.map_some]
  rfl

theorem complete_noArguments : noArguments.Complete := by
  intro ls rest closing i hls hclosing
  obtain rfl := List.map_eq_nil_iff.1 hls
  exact Reading.arguments_close closing i

theorem Complete.given {p : Phrase .someArguments} (h : p.Complete) : (Phrase.given p).Complete := by
  intro ls rest closing i hls hclosing
  obtain ⟨t, ts, ht, hopens⟩ := p.opens nofun nofun
  obtain ⟨⟨token, j⟩, l, rfl, rfl, -⟩ := List.map_eq_cons_iff.1 (hls.trans ht)
  have hne : token ≠ .mark closing := by
    rintro rfl
    rcases hclosing with rfl | rfl <;> cases hopens
  rw [List.cons_append, Reading.arguments_some hne]
  exact h _ rest closing i hls hclosing

theorem Complete.lastArgument {p : Phrase (.layer .conditional)} (h : p.Complete) :
    (Phrase.lastArgument p).Complete := by
  intro ls rest closing i hls hclosing
  have hstop : Stops 1 ((⟨.mark closing, i⟩ :: rest : List Lexeme).map Lexeme.token) := by
    rcases hclosing with rfl | rfl <;> simp
  rw [Reading.someArguments, h ls _ hls hstop, Option.bind_some, Reading.laterArguments_close,
    Option.map_some]
  rfl

theorem Complete.nextArgument {p : Phrase (.layer .conditional)} {later : Phrase .someArguments}
    (h : p.Complete) (hlater : later.Complete) : (Phrase.nextArgument p later).Complete := by
  intro ls rest closing i hls hclosing
  obtain ⟨l₁, j, l₂, rfl, h₁, h₂⟩ := lexemes_at hls
  have hne : closing ≠ .comma := by rcases hclosing with rfl | rfl <;> decide
  simp only [List.append_assoc, List.cons_append]
  rw [Reading.someArguments, h l₁ _ h₁ (by simp), Option.bind_some, Reading.laterArguments_comma hne,
    hlater l₂ rest closing i h₂ hclosing, Option.map_some]
  rfl

theorem complete_noPairs : noPairs.Complete := by
  intro ls rest i j hls
  obtain rfl := List.map_eq_nil_iff.1 hls
  exact Reading.atom_empty i j

theorem Complete.listed {p : Phrase .somePairs} (h : p.Complete) : (Phrase.listed p).Complete := by
  intro ls rest i j hls
  obtain ⟨t, ts, ht, hopens⟩ := p.opens nofun nofun
  obtain ⟨⟨token, k⟩, l, rfl, rfl, -⟩ := List.map_eq_cons_iff.1 (hls.trans ht)
  have hnone : Reading.expect .closeBrace (⟨token, k⟩ :: (l ++ ⟨.mark .closeBrace, j⟩ :: rest)) = none := by
    cases he : Reading.expect .closeBrace (⟨token, k⟩ :: (l ++ ⟨.mark .closeBrace, j⟩ :: rest)) with
    | none => rfl
    | some rest' =>
      obtain ⟨start, e⟩ := Reading.of_expect he
      obtain rfl : token = .mark .closeBrace := by simp_all
      cases hopens
  rw [List.cons_append, Reading.atom_object _ hnone, ← List.cons_append, h _ rest j hls]
  rfl

theorem Complete.lastPair {key : Key} {value : Phrase (.layer .conditional)} (h : value.Complete) :
    (Phrase.lastPair key value).Complete := by
  intro ls rest i hls
  obtain ⟨⟨token, j⟩, l', rfl, rfl, hl'⟩ := List.map_eq_cons_iff.1 hls
  obtain ⟨⟨token, k⟩, l, rfl, rfl, hl⟩ := List.map_eq_cons_iff.1 hl'
  simp only [List.cons_append]
  rw [Reading.pairs_key, h l _ hl (by simp), Option.bind_some, Reading.expect_self, Option.map_some,
    Option.some_or]
  rfl

theorem Complete.nextPair {key : Key} {value : Phrase (.layer .conditional)}
    {later : Phrase .somePairs} (h : value.Complete) (hlater : later.Complete) :
    (Phrase.nextPair key value later).Complete := by
  intro ls rest i hls
  obtain ⟨⟨token, j⟩, l', rfl, rfl, hl'⟩ := List.map_eq_cons_iff.1 hls
  obtain ⟨⟨token, k⟩, l'', rfl, rfl, hl''⟩ := List.map_eq_cons_iff.1 hl'
  obtain ⟨l₁, m, l₂, rfl, h₁, h₂⟩ := lexemes_at hl''
  simp only [List.cons_append, List.append_assoc]
  rw [Reading.pairs_key, h l₁ _ h₁ (by simp), Option.bind_some, Reading.expect_self, Option.bind_some,
    hlater l₂ rest i h₂]
  rfl

theorem complete {c : Category} (p : Phrase c) : p.Complete := by
  induction p with
  | operation p ih => exact ih.operation
  | conditional test yes no htest hyes hno => exact htest.conditional hyes hno
  | operand p ih => exact ih.operand
  | join left op h right hleft hright => exact hleft.join hright
  | accessed p ih => exact ih.accessed
  | unary op p ih => exact ih.unary
  | atom p ih => exact ih.atom
  | member target s ih => exact ih.member
  | index target key ih hkey => exact ih.index hkey
  | call callee values ih hvalues => exact ih.call hvalues
  | number n => exact complete_leaf rfl fun i _ => Reading.atom_number n i
  | text s => exact complete_leaf rfl fun i _ => Reading.atom_text s i
  | name s => exact complete_leaf rfl fun i _ => Reading.atom_name s i
  | array elements ih => exact ih.array
  | object entries ih => exact ih.object
  | group p ih => exact ih.group
  | noArguments => exact complete_noArguments
  | given p ih => exact ih.given
  | lastArgument p ih => exact ih.lastArgument
  | nextArgument p later ih hlater => exact ih.nextArgument hlater
  | noPairs => exact complete_noPairs
  | listed p ih => exact ih.listed
  | lastPair key value ih => exact ih.lastPair
  | nextPair key value later ih hlater => exact ih.nextPair hlater

end Phrase
/-! ## What is read is the tree of a phrase -/

/-- A phrase of the category stands before the rest and prescribes the tree. -/
def Derived (c : Category) (ls : List Lexeme) (t : c.Tree) (rest : List Lexeme) : Prop :=
  ∃ p : Phrase c, ls.map Lexeme.token = p.tokens ++ rest.map Lexeme.token ∧ p.tree = t

/-- In lists of fewer than `n` lexemes every expression that is read is derived. -/
def SoundBelow (n : Nat) : Prop :=
  ∀ ls : List Lexeme, ls.length < n → ∀ e rest, Reading.expression ls = some (e, rest) →
    Derived (.layer .conditional) ls e rest

namespace SoundBelow

variable {n : Nat} (hn : SoundBelow n) {ls rest : List Lexeme}
include hn

theorem someArguments {closing : Mark} (hclosing : closing ≠ .comma) {es : List Expr}
    (hls : ls.length < n) (h : Reading.someArguments closing ls = some (es, rest)) :
    ∃ p : Phrase .someArguments,
      ls.map Lexeme.token = p.tokens ++ .mark closing :: rest.map Lexeme.token ∧ p.tree = es := by
  induction hk : ls.length using Nat.strongRecOn generalizing ls es with
  | ind k ih =>
    obtain ⟨⟨first, rest₁⟩, hfirst, h⟩ := Option.bind_eq_some_iff.1 h
    obtain ⟨⟨later, rest₂⟩, hlater, e⟩ := Option.map_eq_some_iff.1 h
    obtain ⟨rfl, rfl⟩ := Prod.mk.inj e
    obtain ⟨p, hp, rfl⟩ := hn ls hls first rest₁ hfirst
    have hlen := Reading.length_expression hfirst
    cases rest₁ with
    | nil => rw [Reading.laterArguments_nil] at hlater; cases hlater
    | cons lexeme rest₁ =>
      obtain ⟨token, i⟩ := lexeme
      simp only [List.length_cons] at hlen
      by_cases hc : token = .mark closing
      · subst hc
        rw [Reading.laterArguments_close] at hlater
        cases hlater
        exact ⟨.lastArgument p, hp, rfl⟩
      by_cases hcomma : token = .mark .comma
      · subst hcomma
        rw [Reading.laterArguments_comma hclosing] at hlater
        obtain ⟨q, hq, rfl⟩ := ih _ (by omega) (by omega) hlater rfl
        refine ⟨.nextArgument p q, ?_, rfl⟩
        rw [hp, List.map_cons, hq, Phrase.tokens, List.append_assoc, List.cons_append]
      · rw [Reading.laterArguments_other hc hcomma] at hlater
        cases hlater

theorem arguments {closing : Mark} (hclosing : closing ≠ .comma) {es : List Expr}
    (hls : ls.length < n) (h : Reading.arguments closing ls = some (es, rest)) :
    ∃ p : Phrase .arguments,
      ls.map Lexeme.token = p.tokens ++ .mark closing :: rest.map Lexeme.token ∧ p.tree = es := by
  cases ls with
  | nil => rw [Reading.arguments_nil] at h; cases h
  | cons lexeme ls =>
    obtain ⟨token, i⟩ := lexeme
    by_cases hc : token = .mark closing
    · subst hc
      rw [Reading.arguments_close] at h
      cases h
      exact ⟨.noArguments, rfl, rfl⟩
    · rw [Reading.arguments_some hc] at h
      obtain ⟨p, hp, rfl⟩ := hn.someArguments hclosing hls h
      exact ⟨.given p, hp, rfl⟩

theorem somePairs {entries : List (Value × Expr)} (hls : ls.length < n)
    (h : Reading.pairs ls = some (entries, rest)) :
    ∃ p : Phrase .somePairs,
      ls.map Lexeme.token = p.tokens ++ .mark .closeBrace :: rest.map Lexeme.token ∧
        p.tree = entries := by
  induction hk : ls.length using Nat.strongRecOn generalizing ls entries with
  | ind k ih =>
    obtain ⟨key, i, j, ls, rfl⟩ := Reading.of_pairs h
    rw [Reading.pairs_key] at h
    obtain ⟨⟨value, rest₁⟩, hvalue, h⟩ := Option.bind_eq_some_iff.1 h
    simp only [List.length_cons] at hls hk
    obtain ⟨p, hp, rfl⟩ := hn ls (by omega) value rest₁ hvalue
    have hlen := Reading.length_expression hvalue
    rcases Option.or_eq_some_iff.1 h with h | ⟨-, h⟩
    · obtain ⟨rest₂, he, e⟩ := Option.map_eq_some_iff.1 h
      obtain ⟨start, rfl⟩ := Reading.of_expect he
      obtain ⟨rfl, rfl⟩ := Prod.mk.inj e
      refine ⟨.lastPair key p, ?_, rfl⟩
      rw [List.map_cons, List.map_cons, hp]
      rfl
    · obtain ⟨rest₂, he, h⟩ := Option.bind_eq_some_iff.1 h
      obtain ⟨start, rfl⟩ := Reading.of_expect he
      obtain ⟨⟨later, rest₃⟩, hlater, e⟩ := Option.map_eq_some_iff.1 h
      obtain ⟨rfl, rfl⟩ := Prod.mk.inj e
      simp only [List.length_cons] at hlen
      obtain ⟨q, hq, rfl⟩ := ih _ (by omega) (by omega) hlater rfl
      refine ⟨.nextPair key p q, ?_, rfl⟩
      rw [List.map_cons, List.map_cons, hp, List.map_cons, hq, Phrase.tokens]
      simp only [List.cons_append, List.append_assoc]

theorem atom {e : Expr} (hls : ls.length ≤ n) (h : Reading.atom ls = some (e, rest)) :
    Derived (.layer .atom) ls e rest := by
  cases ls with
  | nil => rw [Reading.atom_nil] at h; cases h
  | cons lexeme ls =>
    obtain ⟨token, i⟩ := lexeme
    rw [List.length_cons, Nat.succ_le_iff] at hls
    cases token with
    | number m => rw [Reading.atom_number] at h; cases h; exact ⟨.number m, rfl, rfl⟩
    | text s => rw [Reading.atom_text] at h; cases h; exact ⟨.text s, rfl, rfl⟩
    | name s => rw [Reading.atom_name] at h; cases h; exact ⟨.name s, rfl, rfl⟩
    | binary op => rw [Reading.atom_binary] at h; cases h
    | logical op => rw [Reading.atom_logical] at h; cases h
    | mark m =>
      rcases Reading.of_atom_mark h with rfl | rfl | rfl
      · rw [Reading.atom_group] at h
        obtain ⟨⟨inner, rest₁⟩, hinner, h⟩ := Option.bind_eq_some_iff.1 h
        obtain ⟨rest₂, he, e⟩ := Option.map_eq_some_iff.1 h
        obtain ⟨start, rfl⟩ := Reading.of_expect he
        obtain ⟨rfl, rfl⟩ := Prod.mk.inj e
        obtain ⟨p, hp, rfl⟩ := hn ls hls _ _ hinner
        exact ⟨.group p, by simp [hp, Phrase.tokens], rfl⟩
      · rw [Reading.atom_array] at h
        obtain ⟨⟨elements, rest₁⟩, helements, e⟩ := Option.map_eq_some_iff.1 h
        obtain ⟨rfl, rfl⟩ := Prod.mk.inj e
        obtain ⟨p, hp, rfl⟩ := hn.arguments (by decide) hls helements
        exact ⟨.array p, by simp [hp, Phrase.tokens], rfl⟩
      · cases he : Reading.expect .closeBrace ls with
        | some rest₁ =>
          obtain ⟨start, rfl⟩ := Reading.of_expect he
          rw [Reading.atom_empty] at h
          cases h
          exact ⟨.object .noPairs, rfl, rfl⟩
        | none =>
          rw [Reading.atom_object _ he] at h
          obtain ⟨⟨entries, rest₁⟩, hentries, e⟩ := Option.map_eq_some_iff.1 h
          obtain ⟨rfl, rfl⟩ := Prod.mk.inj e
          obtain ⟨p, hp, rfl⟩ := hn.somePairs hls hentries
          exact ⟨.object (.listed p), by simp [hp, Phrase.tokens], rfl⟩

/-- A phrase that was read up to some lexemes is extended by what is read of them. -/
theorem accessed {base e : Expr} {all : List Lexeme} (hall : Derived (.layer .access) all base ls)
    (hls : ls.length < n) (h : Reading.accessed base ls = some (e, rest)) :
    Derived (.layer .access) all e rest := by
  induction hk : ls.length using Nat.strongRecOn generalizing ls base with
  | ind k ih =>
    obtain ⟨p, hp, rfl⟩ := hall
    by_cases hstop : Stops 9 (ls.map Lexeme.token)
    · rw [Reading.accessed_stop _ hstop] at h
      cases h
      exact ⟨p, hp, rfl⟩
    rcases Reading.of_accessed h hstop with ⟨i, ls, rfl⟩ | ⟨i, ls, rfl⟩ | ⟨s, i, j, ls, rfl⟩
    · simp only [List.length_cons] at hls hk
      rw [Reading.accessed_index] at h
      obtain ⟨⟨key, rest₁⟩, hkey, h⟩ := Option.bind_eq_some_iff.1 h
      obtain ⟨rest₂, he, h⟩ := Option.bind_eq_some_iff.1 h
      obtain ⟨start, rfl⟩ := Reading.of_expect he
      have hlen := Reading.length_expression hkey
      simp only [List.length_cons] at hlen
      obtain ⟨q, hq, rfl⟩ := hn ls (by omega) _ _ hkey
      exact ih _ (by omega) ⟨.index p q, by simp [hp, hq, Phrase.tokens], rfl⟩ (by omega) h rfl
    · simp only [List.length_cons] at hls hk
      rw [Reading.accessed_call] at h
      obtain ⟨⟨values, rest₁⟩, hvalues, h⟩ := Option.bind_eq_some_iff.1 h
      have hlen := Reading.length_arguments hvalues
      obtain ⟨q, hq, rfl⟩ := hn.arguments (by decide) (by omega) hvalues
      exact ih rest₁.length (by omega) ⟨.call p q, by simp [hp, hq, Phrase.tokens], rfl⟩
        (Nat.lt_trans hlen (by omega)) h rfl
    · simp only [List.length_cons] at hls hk
      rw [Reading.accessed_member] at h
      exact ih _ (by omega) ⟨.member p s, by simp [hp, Phrase.tokens], rfl⟩ (by omega) h rfl

theorem unary {e : Expr} (hls : ls.length ≤ n) (h : Reading.unary ls = some (e, rest)) :
    Derived (.layer .unary) ls e rest := by
  induction ls generalizing e with
  | nil => rw [Reading.unary_nil] at h; cases h
  | cons lexeme ls ih =>
    cases hop : Expr.unaryOperator? lexeme.token with
    | some op =>
      rw [Reading.unary_sign hop] at h
      obtain ⟨⟨argument, rest₁⟩, hargument, e⟩ := Option.map_eq_some_iff.1 h
      obtain ⟨rfl, rfl⟩ := Prod.mk.inj e
      obtain ⟨p, hp, rfl⟩ := ih (by simp at hls; omega) hargument
      exact ⟨.unary op p, by simp [hp, Phrase.tokens, Reading.of_unaryOperator? hop], rfl⟩
    | none =>
      rw [Reading.unary_atom hop] at h
      obtain ⟨⟨base, rest₁⟩, hbase, h⟩ := Option.bind_eq_some_iff.1 h
      have hlen := Reading.length_atom hbase
      obtain ⟨p, hp, rfl⟩ := hn.atom hls hbase
      obtain ⟨q, hq, rfl⟩ := hn.accessed ⟨.atom p, hp, rfl⟩ (by omega) h
      exact ⟨.accessed q, hq, rfl⟩

end SoundBelow

section
variable {n : Nat} {family : Family} {ls rest : List Lexeme} {e : Expr}

/-- The expressions of a layer that are read in lists of at most `n` lexemes at the level of a family,
or of what the family joins, are derived. -/
def SoundAt (n level : Nat) (layer : Layer) : Prop :=
  ∀ ls : List Lexeme, ls.length ≤ n → ∀ e rest, Reading.operation level ls = some (e, rest) →
    Derived (.layer layer) ls e rest

/-- A left operand is extended by one operator and one right operand after the other. -/
theorem SoundAt.continued (operands : SoundAt n (family.level + 1) family.operands) {left : Expr}
    {all : List Lexeme} (hall : Derived (.layer (.joined family)) all left ls) (hls : ls.length ≤ n)
    (h : Reading.continued family.level left ls = some (e, rest)) :
    Derived (.layer (.joined family)) all e rest := by
  induction hk : ls.length using Nat.strongRecOn generalizing ls left with
  | ind k ih =>
    cases ls with
    | nil => rw [Reading.continued_nil] at h; cases h; exact hall
    | cons lexeme ls =>
      cases hop : Expr.operatorAt? family.level lexeme.token with
      | none => rw [Reading.continued_stop left hop] at h; cases h; exact hall
      | some make =>
        obtain ⟨op, htoken, hfamily, rfl⟩ := Reading.of_operatorAt? hop
        rw [Reading.continued_operator left hop] at h
        obtain ⟨⟨right, rest₁⟩, hright, h⟩ := Option.bind_eq_some_iff.1 h
        have hlen := Reading.length_operation hright
        simp only [List.length_cons] at hls hk
        obtain ⟨p, hp, rfl⟩ := hall
        obtain ⟨q, hq, rfl⟩ := operands ls (by omega) _ _ hright
        exact ih rest₁.length (by omega) ⟨.join p op hfamily q, by simp [hp, hq, htoken, Phrase.tokens], rfl⟩
          (Nat.le_of_lt (Nat.lt_of_lt_of_le hlen (by omega))) h rfl

theorem SoundAt.joined (operands : SoundAt n (family.level + 1) family.operands) :
    SoundAt n family.level (.joined family) := by
  intro ls hls e rest h
  rw [Reading.operation_eq family.level_lt] at h
  obtain ⟨⟨left, rest₁⟩, hleft, h⟩ := Option.bind_eq_some_iff.1 h
  have hlen := Reading.length_operation hleft
  obtain ⟨p, hp, rfl⟩ := operands ls hls _ _ hleft
  exact operands.continued ⟨.operand p, hp, rfl⟩ (by omega) h

theorem SoundBelow.operation (hn : SoundBelow n) :
    SoundAt n Family.coalesce.level (.joined .coalesce) := by
  have unary : SoundAt n 7 .unary := fun ls hls e rest h =>
    hn.unary hls ((Reading.operation_last ls).symm.trans h)
  have product : SoundAt n Family.product.level (.joined .product) := unary.joined
  have sum : SoundAt n Family.sum.level (.joined .sum) := product.joined
  have order : SoundAt n Family.order.level (.joined .order) := sum.joined
  have equality : SoundAt n Family.equality.level (.joined .equality) := order.joined
  have and : SoundAt n Family.and.level (.joined .and) := equality.joined
  have or : SoundAt n Family.or.level (.joined .or) := and.joined
  exact or.joined

theorem SoundBelow.expression (hn : SoundBelow n) (hls : ls.length ≤ n)
    (h : Reading.expression ls = some (e, rest)) : Derived (.layer .conditional) ls e rest := by
  rw [Reading.expression_eq] at h
  obtain ⟨⟨test, rest₁⟩, htest, h⟩ := Option.bind_eq_some_iff.1 h
  have hlen := Reading.length_operation htest
  obtain ⟨p, hp, rfl⟩ := hn.operation ls hls _ _ htest
  cases he : Reading.expect .question rest₁ with
  | none =>
    rw [he] at h
    cases h
    exact ⟨.operation p, hp, rfl⟩
  | some rest₂ =>
    rw [he] at h
    obtain ⟨i, rfl⟩ := Reading.of_expect he
    obtain ⟨⟨yes, rest₃⟩, hyes, h⟩ := Option.bind_eq_some_iff.1 h
    obtain ⟨rest₄, he', h⟩ := Option.bind_eq_some_iff.1 h
    obtain ⟨j, rfl⟩ := Reading.of_expect he'
    obtain ⟨⟨no, rest₅⟩, hno, e⟩ := Option.map_eq_some_iff.1 h
    obtain ⟨rfl, rfl⟩ := Prod.mk.inj e
    have hlen' := Reading.length_expression hyes
    simp only [List.length_cons] at hlen hlen'
    obtain ⟨q, hq, rfl⟩ := hn _ (by omega) _ _ hyes
    obtain ⟨r, hr, rfl⟩ := hn _ (by omega) _ _ hno
    exact ⟨.conditional p q r, by simp [hp, hq, hr, Phrase.tokens], rfl⟩

end

theorem soundBelow (n : Nat) : SoundBelow n := by
  induction n with
  | zero => intro ls h; cases h
  | succ n ih => exact fun ls hls e rest h => ih.expression (Nat.le_of_lt_succ hls) h

/-- The reader takes all of the lexemes exactly when their tokens have a derivation, and gives the tree
that the derivation prescribes. -/
theorem Reading.expression_eq_some_iff {ls : List Lexeme} {e : Expr} :
    Reading.expression ls = some (e, []) ↔
      ∃ p : Phrase (.layer .conditional), p.tokens = ls.map Lexeme.token ∧ p.tree = e := by
  constructor
  · intro h
    obtain ⟨p, hp, ht⟩ := soundBelow (ls.length + 1) ls (Nat.lt_succ_self _) e [] h
    exact ⟨p, by rw [hp, List.map_nil, List.append_nil], ht⟩
  · rintro ⟨p, hp, rfl⟩
    simpa using p.complete ls [] hp.symm Token.stops_nil

end PipelineTemplate
