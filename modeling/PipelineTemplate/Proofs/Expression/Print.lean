import PipelineTemplate.Proofs.Expression.Spelling
import PipelineTemplate.Proofs.Expression.Unambiguity

/-!
# Writing expressions

An expression is written as tokens by the productions of the grammar, with parentheses around a part
that belongs to a layer which binds less than the one where it stands. Main statements: the tokens have a
derivation that prescribes the expression, and what is put in parentheses would not be derived where it
stands without them.
-/

namespace PipelineTemplate

/-! ## Layers -/

/-- How many layers bind less. -/
def Layer.rank : Layer → Nat
  | .conditional => 0
  | .joined family => family.level + 1
  | .unary => 8
  | .access => 9
  | .atom => 10

/-- The layer whose productions an expression is an outcome of. -/
def Expr.layer : Expr → Layer
  | .conditional .. => .conditional
  | .logical op .. => .joined (Connective.logical op).family
  | .binary op .. => .joined (Connective.binary op).family
  | .unary .. => .unary
  | .member .. | .index .. | .call .. => .access
  | .literal _ | .name _ | .array _ | .object _ => .atom

/-- The tokens of an expression where a phrase of a layer stands. -/
def Layer.enclose (l : Layer) (e : Expr) (ts : List Token) : List Token :=
  if l.rank ≤ e.layer.rank then ts else .mark .openParen :: (ts ++ [.mark .closeParen])

/-! ## Tokens of expressions -/

/-- The token of a text or a number; other values have none. -/
def Value.tokens : Value → List Token
  | .text s => [.text s]
  | .number n => [.number n]
  | _ => []

/-- The tokens of an operator between its operands. -/
def Connective.between (op : Connective) (left right : Expr) (ls rs : List Token) : List Token :=
  (Layer.joined op.family).enclose left ls ++ op.token :: op.family.operands.enclose right rs

namespace Expr

mutual

def tokens : Expr → List Token
  | .literal v => v.tokens
  | .name s => [.name s]
  | .member target s => Layer.access.enclose target target.tokens ++ [.mark .dot, .name s]
  | .index target key =>
    Layer.access.enclose target target.tokens ++
      .mark .openBracket :: (key.tokens ++ [.mark .closeBracket])
  | .call callee values =>
    Layer.access.enclose callee callee.tokens ++
      .mark .openParen :: (listTokens values ++ [.mark .closeParen])
  | .unary op argument => op.token :: Layer.unary.enclose argument argument.tokens
  | .binary op left right => (Connective.binary op).between left right left.tokens right.tokens
  | .logical op left right => (Connective.logical op).between left right left.tokens right.tokens
  | .conditional test yes no =>
    (Layer.joined .coalesce).enclose test test.tokens ++
      .mark .question :: (yes.tokens ++ .mark .colon :: no.tokens)
  | .array elements => .mark .openBracket :: (listTokens elements ++ [.mark .closeBracket])
  | .object entries => .mark .openBrace :: (pairTokens entries ++ [.mark .closeBrace])

def listTokens : List Expr → List Token
  | [] => []
  | [e] => e.tokens
  | e :: es => e.tokens ++ .mark .comma :: listTokens es

def pairTokens : List (Value × Expr) → List Token
  | [] => []
  | [(key, e)] => key.tokens ++ .mark .colon :: e.tokens
  | (key, e) :: entries =>
    key.tokens ++ .mark .colon :: (e.tokens ++ .mark .comma :: pairTokens entries)

end

theorem listTokens_cons_cons (e e' : Expr) (es : List Expr) :
    listTokens (e :: e' :: es) = e.tokens ++ .mark .comma :: listTokens (e' :: es) := rfl

theorem pairTokens_cons_cons (first second : Value × Expr) (pairs : List (Value × Expr)) :
    pairTokens (first :: second :: pairs) =
      first.1.tokens ++ .mark .colon :: (first.2.tokens ++ .mark .comma :: pairTokens (second :: pairs)) :=
  rfl

end Expr

/-- The values that are written as tokens: texts, and numbers that have numerals. -/
inductive Value.Printable : Value → Prop where
  | text (s : String) : Printable (.text s)
  | number {n : Number.Numeric} (h : n.hasNumeral = true) : Printable (.number n)

/-- The expressions whose literals, keys and names can be written. -/
inductive Expr.Printable : Expr → Prop where
  | literal {v : Value} (h : v.Printable) : Printable (.literal v)
  | name {s : String} (h : Text.isName s.toList = true) : Printable (.name s)
  | member {target : Expr} {s : String} (ht : Printable target) (hs : Text.isName s.toList = true) :
      Printable (.member target s)
  | index {target key : Expr} (ht : Printable target) (hk : Printable key) :
      Printable (.index target key)
  | call {callee : Expr} {values : List Expr} (hc : Printable callee)
      (hv : ∀ e ∈ values, Printable e) : Printable (.call callee values)
  | unary (op : UnaryOp) {argument : Expr} (h : Printable argument) : Printable (.unary op argument)
  | binary (op : BinaryOp) {left right : Expr} (hl : Printable left) (hr : Printable right) :
      Printable (.binary op left right)
  | logical (op : LogicalOp) {left right : Expr} (hl : Printable left) (hr : Printable right) :
      Printable (.logical op left right)
  | conditional {test yes no : Expr} (ht : Printable test) (hy : Printable yes) (hn : Printable no) :
      Printable (.conditional test yes no)
  | array {elements : List Expr} (h : ∀ e ∈ elements, Printable e) : Printable (.array elements)
  | object {entries : List (Value × Expr)} (hk : ∀ p ∈ entries, p.1.Printable)
      (h : ∀ p ∈ entries, Printable p.2) : Printable (.object entries)

/-! ## The tokens can be written -/

@[simp] theorem Layer.all_enclose (l : Layer) (e : Expr) (ts : List Token) :
    (l.enclose e ts).all Token.isWritable = ts.all Token.isWritable := by
  unfold enclose
  split <;> simp [Token.isWritable]

theorem Value.Printable.all_tokens {v : Value} (h : v.Printable) : v.tokens.all Token.isWritable = true := by
  cases h with
  | text s => rfl
  | number h => simpa [tokens, Token.isWritable] using h

namespace Expr

theorem all_between (op : Connective) {left right : Expr} {ls rs : List Token}
    (hl : ls.all Token.isWritable = true) (hr : rs.all Token.isWritable = true) :
    (op.between left right ls rs).all Token.isWritable = true := by
  cases op <;> simp only [Connective.between, Connective.token, List.all_append, List.all_cons,
    Layer.all_enclose, hl, hr] <;> rfl

theorem all_listTokens {es : List Expr} (h : ∀ e ∈ es, e.tokens.all Token.isWritable = true) :
    (listTokens es).all Token.isWritable = true := by
  induction es with
  | nil => rfl
  | cons e es ih =>
    obtain ⟨he, hes⟩ := List.forall_mem_cons.1 h
    cases es with
    | nil => exact he
    | cons e' es =>
      rw [listTokens_cons_cons, List.all_append, List.all_cons, he, ih hes]
      rfl

theorem all_pairTokens {pairs : List (Value × Expr)} (hk : ∀ p ∈ pairs, p.1.Printable)
    (h : ∀ p ∈ pairs, p.2.tokens.all Token.isWritable = true) :
    (pairTokens pairs).all Token.isWritable = true := by
  induction pairs with
  | nil => rfl
  | cons pair pairs ih =>
    obtain ⟨hkey, hkeys⟩ := List.forall_mem_cons.1 hk
    obtain ⟨he, hes⟩ := List.forall_mem_cons.1 h
    cases pairs with
    | nil =>
      rw [pairTokens, List.all_append, List.all_cons, hkey.all_tokens, he]
      rfl
    | cons pair' pairs =>
      rw [pairTokens_cons_cons, List.all_append, List.all_cons, List.all_append, List.all_cons,
        hkey.all_tokens, he, ih hkeys hes]
      rfl

theorem Printable.all_tokens {e : Expr} (h : e.Printable) : e.tokens.all Token.isWritable = true := by
  induction h with
  | literal h => exact h.all_tokens
  | name h => simpa [tokens, Token.isWritable] using h
  | member ht hs ih => simp [tokens, Token.isWritable, ih, hs]
  | index ht hk iht ihk => simp [tokens, Token.isWritable, iht, ihk]
  | call hc hv ihc ihv => simp [tokens, Token.isWritable, ihc, all_listTokens ihv]
  | unary op h ih => cases op <;> simp [tokens, UnaryOp.token, Token.isWritable, ih]
  | binary op hl hr ihl ihr => exact all_between (.binary op) ihl ihr
  | logical op hl hr ihl ihr => exact all_between (.logical op) ihl ihr
  | conditional ht hy hn iht ihy ihn => simp [tokens, Token.isWritable, iht, ihy, ihn]
  | array h ih => simp [tokens, Token.isWritable, all_listTokens ih]
  | object hk h ih => simp [tokens, Token.isWritable, all_pairTokens hk ih]

end Expr

/-! ## Layers of phrases -/

namespace Layer

/-- The next layer, which binds more. -/
def tighter : Layer → Layer
  | .conditional => .joined .coalesce
  | .joined family => family.operands
  | .unary => .access
  | .access | .atom => .atom

theorem rank_operands (family : Family) : family.operands.rank = family.level + 2 := by
  cases family <;> rfl

theorem rank_le (l : Layer) : l.rank ≤ 10 := by
  cases l with
  | joined family =>
    have h := family.level_lt
    simp only [rank]
    omega
  | _ => decide

theorem rank_tighter {l : Layer} (h : l.rank < 10) : l.tighter.rank = l.rank + 1 := by
  cases l with
  | joined family => exact rank_operands family
  | atom => exact absurd h (by decide)
  | conditional | unary | access => rfl

theorem eq_of_rank {l l' : Layer} (h : l.rank = l'.rank) : l = l' := by
  -- A family is determined by its level, and no level reaches the ranks of the other layers.
  have level {f g : Family} (h : f.level = g.level) : f = g := by
    cases f <;> cases g <;> first | rfl | cases h
  cases l <;> cases l' <;> simp only [rank] at h
  case joined.joined => exact congrArg joined (level (Nat.succ.inj h))
  all_goals grind [Family.level_lt]

end Layer

namespace Phrase

/-- A phrase of the next layer is a phrase of the layer. -/
def loosen : {l : Layer} → Phrase (.layer l.tighter) → Phrase (.layer l)
  | .conditional, p => .operation p
  | .joined _, p => .operand p
  | .unary, p => .accessed p
  | .access, p => .atom p
  | .atom, p => p

/-- The layer of the first production that is more than a step to the next layer. -/
def top : {c : Category} → Phrase c → Layer
  | _, operation p | _, operand p | _, accessed p | _, atom p => p.top
  | _, conditional .. => .conditional
  | _, @join family .. => .joined family
  | _, unary .. => .unary
  | _, member .. | _, index .. | _, call .. => .access
  | _, _ => .atom

section
variable {l : Layer} (p : Phrase (.layer l.tighter))

@[simp] theorem tokens_loosen : p.loosen.tokens = p.tokens := by cases l <;> rfl

@[simp] theorem tree_loosen : p.loosen.tree = p.tree := by cases l <;> rfl

@[simp] theorem top_loosen : p.loosen.top = p.top := by cases l <;> rfl

end

/-- A phrase of a layer is a phrase of each layer that binds less. -/
theorem exists_looser {l l' : Layer} (p : Phrase (.layer l')) (h : l.rank ≤ l'.rank) :
    ∃ q : Phrase (.layer l), q.tokens = p.tokens ∧ q.tree = p.tree ∧ q.top = p.top := by
  induction hn : l'.rank - l.rank generalizing l with
  | zero =>
    obtain rfl : l = l' := Layer.eq_of_rank (by omega)
    exact ⟨p, rfl, rfl, rfl⟩
  | succ n ih =>
    have hl' := l'.rank_le
    have htighter := Layer.rank_tighter (l := l) (by omega)
    obtain ⟨q, htokens, htree, htop⟩ := ih (l := l.tighter) (by omega) (by omega)
    exact ⟨q.loosen, by simp [htokens], by simp [htree], by simp [htop]⟩

/-- The steps to the next layer lead upwards. -/
theorem rank_le_top {c : Category} (p : Phrase c) {l : Layer} (hc : c = .layer l) :
    l.rank ≤ p.top.rank := by
  induction p generalizing l with
  | operation | conditional => cases hc; exact Nat.zero_le _
  | @operand family p ih =>
    cases hc
    have h := ih rfl
    rw [Layer.rank_operands] at h
    exact Nat.le_of_succ_le h
  | accessed p ih | atom p ih => cases hc; exact Nat.le_of_succ_le (ih rfl)
  | join | unary | member | index | call | number | text | name | array | object | group =>
    cases hc; exact Nat.le_refl _
  | noArguments | given | lastArgument | nextArgument | noPairs | listed | lastPair | nextPair => cases hc

end Phrase

/-! ## Derivations of expressions -/

/-- The tokens of an expression have a derivation that begins with a production of its layer. -/
def Expr.Derivable (e : Expr) : Prop :=
  ∃ p : Phrase (.layer e.layer), p.tokens = e.tokens ∧ p.tree = e ∧ p.top = e.layer

@[simp] theorem Layer.enclose_conditional (e : Expr) (ts : List Token) :
    Layer.conditional.enclose e ts = ts := if_pos (Nat.zero_le _)

namespace Expr.Derivable

variable {e : Expr}

theorem of_phrase (l : Layer) (hl : e.layer = l) (p : Phrase (.layer l)) (htokens : p.tokens = e.tokens)
    (htree : p.tree = e) (htop : p.top = l) : e.Derivable := by
  subst hl
  exact ⟨p, htokens, htree, htop⟩

/-- Where a phrase of a layer stands, the expression is derived with the parentheses that it has there. -/
theorem enclosed (h : e.Derivable) (l : Layer) :
    ∃ q : Phrase (.layer l), q.tokens = l.enclose e e.tokens ∧ q.tree = e := by
  obtain ⟨p, htokens, htree, -⟩ := h
  by_cases hl : l.rank ≤ e.layer.rank
  · obtain ⟨q, hq, hq', -⟩ := p.exists_looser hl
    exact ⟨q, by rw [hq, htokens, Layer.enclose, if_pos hl], hq'.trans htree⟩
  · obtain ⟨q, hq, hq', -⟩ := p.exists_looser (l := .conditional) (Nat.zero_le _)
    obtain ⟨r, hr, hr', -⟩ := (Phrase.group q).exists_looser (l := l) l.rank_le
    refine ⟨r, ?_, by rw [hr', Phrase.tree, hq', htree]⟩
    rw [hr, Phrase.tokens, hq, htokens, Layer.enclose, if_neg hl]

theorem whole (h : e.Derivable) : ∃ q : Phrase (.layer .conditional), q.tokens = e.tokens ∧ q.tree = e := by
  simpa using h.enclosed .conditional

/-- The tokens are derived at a layer just when they have no parentheses there. -/
theorem exists_phrase_iff (h : e.Derivable) (l : Layer) :
    (∃ q : Phrase (.layer l), q.tokens = e.tokens) ↔ l.rank ≤ e.layer.rank := by
  obtain ⟨p, htokens, -, htop⟩ := h
  constructor
  · rintro ⟨q, hq⟩
    -- The two derivations are one from the lowest layer, so they begin with the same production.
    obtain ⟨p', hp', -, hptop⟩ := p.exists_looser (l := .conditional) (Nat.zero_le _)
    obtain ⟨q', hq', -, hqtop⟩ := q.exists_looser (l := .conditional) (Nat.zero_le _)
    have he : q' = p' := Phrase.eq_of_tokens (by rw [hq', hq, hp', htokens])
    rw [← htop, ← hptop, ← he, hqtop]
    exact q.rank_le_top rfl
  · intro hl
    obtain ⟨q, hq, -⟩ := p.exists_looser hl
    exact ⟨q, hq.trans htokens⟩

/-- A part stands without parentheses just where its tokens are derived. -/
theorem enclose_eq_iff (h : e.Derivable) (l : Layer) :
    l.enclose e e.tokens = e.tokens ↔ ∃ q : Phrase (.layer l), q.tokens = e.tokens := by
  rw [h.exists_phrase_iff, Layer.enclose]
  by_cases hl : l.rank ≤ e.layer.rank
  · simp only [hl, if_true]
  · rw [if_neg hl]
    refine iff_of_false (fun heq => ?_) hl
    have hlength := congrArg List.length heq
    simp only [List.length_cons, List.length_append, List.length_nil] at hlength
    omega

theorem join {left right : Expr} (op : Connective) (hl : left.Derivable) (hr : right.Derivable) :
    (op.join left right).Derivable := by
  obtain ⟨p, hp, hp'⟩ := hl.enclosed (.joined op.family)
  obtain ⟨q, hq, hq'⟩ := hr.enclosed op.family.operands
  have htokens : (op.join left right).tokens = op.between left right left.tokens right.tokens := by
    cases op <;> rfl
  refine of_phrase _ (by cases op <;> rfl) (.join p op rfl q) ?_ ?_ rfl
  · rw [Phrase.tokens, hp, hq, htokens, Connective.between]
  · rw [Phrase.tree, hp', hq']

theorem exists_someArguments {es : List Expr} (h : ∀ x ∈ e :: es, x.Derivable) :
    ∃ p : Phrase .someArguments, p.tokens = listTokens (e :: es) ∧ p.tree = e :: es := by
  induction es generalizing e with
  | nil =>
    obtain ⟨p, hp, hp'⟩ := (h e List.mem_cons_self).whole
    exact ⟨.lastArgument p, hp, congrArg (fun x => [x]) hp'⟩
  | cons e' es ih =>
    obtain ⟨p, hp, hp'⟩ := (h e List.mem_cons_self).whole
    obtain ⟨q, hq, hq'⟩ := ih fun x hx => h x (List.mem_cons_of_mem _ hx)
    exact ⟨.nextArgument p q, by rw [Phrase.tokens, hp, hq, listTokens_cons_cons],
      by rw [Phrase.tree, hp', hq']⟩

theorem exists_arguments {es : List Expr} (h : ∀ e ∈ es, e.Derivable) :
    ∃ p : Phrase .arguments, p.tokens = listTokens es ∧ p.tree = es := by
  cases es with
  | nil => exact ⟨.noArguments, rfl, rfl⟩
  | cons e es =>
    obtain ⟨p, hp, hp'⟩ := exists_someArguments h
    exact ⟨.given p, hp, hp'⟩

end Expr.Derivable

theorem Value.Printable.exists_key {v : Value} (h : v.Printable) :
    ∃ key : Key, v.tokens = [key.token] ∧ key.value = v := by
  cases h with
  | text s => exact ⟨.text s, rfl, rfl⟩
  | number h => exact ⟨.number _, rfl, rfl⟩

namespace Expr

/-- The key and the value of a pair are derived. -/
def PairDerivable (pair : Value × Expr) : Prop := pair.1.Printable ∧ pair.2.Derivable

theorem exists_somePairs {pair : Value × Expr} {pairs : List (Value × Expr)}
    (h : ∀ x ∈ pair :: pairs, PairDerivable x) :
    ∃ p : Phrase .somePairs, p.tokens = pairTokens (pair :: pairs) ∧ p.tree = pair :: pairs := by
  obtain ⟨key, e⟩ := pair
  obtain ⟨hkey, he⟩ := h _ List.mem_cons_self
  obtain ⟨k, hk, hk'⟩ := Value.Printable.exists_key hkey
  obtain ⟨p, hp, hp'⟩ := Derivable.whole he
  dsimp only at hk hk' hp hp'
  cases pairs with
  | nil => exact ⟨.lastPair k p, by rw [Phrase.tokens, hp, pairTokens, hk]; rfl, by rw [Phrase.tree, hp', hk']⟩
  | cons pair pairs =>
    obtain ⟨q, hq, hq'⟩ := exists_somePairs fun x hx => h x (List.mem_cons_of_mem _ hx)
    exact ⟨.nextPair k p q, by rw [Phrase.tokens, hp, hq, pairTokens_cons_cons, hk]; rfl,
      by rw [Phrase.tree, hp', hk', hq']⟩

theorem exists_pairs {pairs : List (Value × Expr)} (h : ∀ x ∈ pairs, PairDerivable x) :
    ∃ p : Phrase .pairs, p.tokens = pairTokens pairs ∧ p.tree = pairs := by
  cases pairs with
  | nil => exact ⟨.noPairs, rfl, rfl⟩
  | cons pair pairs =>
    obtain ⟨p, hp, hp'⟩ := exists_somePairs h
    exact ⟨.listed p, hp, hp'⟩

/-- What can be written is derived from its tokens. -/
theorem Printable.derivable {e : Expr} (h : e.Printable) : e.Derivable := by
  induction h with
  | literal h =>
    cases h with
    | text s => exact .of_phrase .atom rfl (.text s) rfl rfl rfl
    | @number n h => exact .of_phrase .atom rfl (.number n) rfl rfl rfl
  | @name s h => exact .of_phrase .atom rfl (.name s) rfl rfl rfl
  | @member target s ht hs ih =>
    obtain ⟨p, hp, hp'⟩ := ih.enclosed .access
    exact .of_phrase .access rfl (.member p s) (by rw [Phrase.tokens, hp, tokens]) (by rw [Phrase.tree, hp']) rfl
  | index ht hk iht ihk =>
    obtain ⟨p, hp, hp'⟩ := iht.enclosed .access
    obtain ⟨q, hq, hq'⟩ := ihk.whole
    exact .of_phrase .access rfl (.index p q) (by rw [Phrase.tokens, hp, hq, tokens])
      (by rw [Phrase.tree, hp', hq']) rfl
  | call hc hv ihc ihv =>
    obtain ⟨p, hp, hp'⟩ := ihc.enclosed .access
    obtain ⟨q, hq, hq'⟩ := Derivable.exists_arguments ihv
    exact .of_phrase .access rfl (.call p q) (by rw [Phrase.tokens, hp, hq, tokens])
      (by rw [Phrase.tree, hp', hq']) rfl
  | unary op h ih =>
    obtain ⟨p, hp, hp'⟩ := ih.enclosed .unary
    exact .of_phrase .unary rfl (.unary op p) (by rw [Phrase.tokens, hp, tokens]) (by rw [Phrase.tree, hp']) rfl
  | binary op hl hr ihl ihr => exact .join (.binary op) ihl ihr
  | logical op hl hr ihl ihr => exact .join (.logical op) ihl ihr
  | conditional ht hy hn iht ihy ihn =>
    obtain ⟨p, hp, hp'⟩ := iht.enclosed (.joined .coalesce)
    obtain ⟨q, hq, hq'⟩ := ihy.whole
    obtain ⟨r, hr, hr'⟩ := ihn.whole
    exact .of_phrase .conditional rfl (.conditional p q r) (by rw [Phrase.tokens, hp, hq, hr, tokens])
      (by rw [Phrase.tree, hp', hq', hr']) rfl
  | array h ih =>
    obtain ⟨p, hp, hp'⟩ := Derivable.exists_arguments ih
    exact .of_phrase .atom rfl (.array p) (by rw [Phrase.tokens, hp, tokens]) (by rw [Phrase.tree, hp']) rfl
  | object hk h ih =>
    obtain ⟨p, hp, hp'⟩ := exists_pairs fun x hx => ⟨hk x hx, ih x hx⟩
    exact .of_phrase .atom rfl (.object p) (by rw [Phrase.tokens, hp, tokens]) (by rw [Phrase.tree, hp']) rfl

end Expr

end PipelineTemplate
