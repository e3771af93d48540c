import PipelineTemplate.Proofs.Expression.Phrase

/-!
# The grammar is unambiguous

Two phrases of one category that begin the same tokens are the same phrase, unless the tokens after one
of them continue it to the other. What may stand behind a phrase is told by how strongly a token binds
to the expression before it. Main statement: a sequence of tokens has at most one derivation.
-/

namespace PipelineTemplate

/-! ## What begins and what continues a phrase -/

namespace Token

/-- The tokens that begin an expression. -/
def opens : Token → Bool
  | .number _ | .text _ | .name _ | .mark .openBracket | .mark .openBrace | .mark .openParen
  | .mark .bang | .binary .sub | .binary .add => true
  | _ => false

/-- How strongly a token binds to an expression before it; zero when it does not continue one. -/
def strength : Token → Nat
  | .mark .question => 1
  | .logical op => (Connective.logical op).family.level + 2
  | .binary op => (Connective.binary op).family.level + 2
  | .mark .dot | .mark .openBracket | .mark .openParen => 9
  | _ => 0

@[simp] theorem strength_question : (mark .question).strength = 1 := rfl
@[simp] theorem strength_colon : (mark .colon).strength = 0 := rfl
@[simp] theorem strength_comma : (mark .comma).strength = 0 := rfl
@[simp] theorem strength_dot : (mark .dot).strength = 9 := rfl
@[simp] theorem strength_openParen : (mark .openParen).strength = 9 := rfl
@[simp] theorem strength_openBracket : (mark .openBracket).strength = 9 := rfl
@[simp] theorem strength_closeParen : (mark .closeParen).strength = 0 := rfl
@[simp] theorem strength_closeBracket : (mark .closeBracket).strength = 0 := rfl
@[simp] theorem strength_closeBrace : (mark .closeBrace).strength = 0 := rfl

/-- The first token binds less than `k`. -/
def Stops (k : Nat) (ts : List Token) : Prop := ∀ t ∈ ts.head?, t.strength < k

@[simp] theorem stops_nil {k : Nat} : Stops k [] := by simp [Stops]

@[simp] theorem stops_cons {k : Nat} {t : Token} {ts : List Token} :
    Stops k (t :: ts) ↔ t.strength < k := by simp [Stops]

theorem Stops.mono {k l : Nat} {ts : List Token} (h : Stops k ts) (hkl : k ≤ l) : Stops l ts :=
  fun t ht => Nat.lt_of_lt_of_le (h t ht) hkl

end Token

open Token (Stops)

@[simp] theorem Connective.strength_token (op : Connective) : op.token.strength = op.family.level + 2 := by
  cases op <;> rfl

theorem Family.level_lt (family : Family) : family.level < 7 := by
  cases family <;> decide

theorem Connective.strength_lt (op : Connective) : op.token.strength < 9 := by
  have h := op.family.level_lt
  rw [op.strength_token]
  omega

/-- The least strength with which tokens continue an expression of the layer. -/
def Layer.strength : Layer → Nat
  | .conditional => 1
  | .joined family => family.level + 2
  | .unary | .access => 9
  | .atom => 10

@[simp] theorem Layer.strength_conditional : conditional.strength = 1 := rfl
@[simp] theorem Layer.strength_joined (family : Family) : (joined family).strength = family.level + 2 := rfl
@[simp] theorem Layer.strength_access : access.strength = 9 := rfl

@[simp] theorem Family.strength_operands (family : Family) :
    family.operands.strength = family.level + 3 := by
  cases family <;> rfl

theorem Phrase.opens {c : Category} (p : Phrase c) (ha : c ≠ .arguments) (hp : c ≠ .pairs) :
    ∃ t ts, p.tokens = t :: ts ∧ t.opens = true := by
  induction p with
  | operation p ih | operand p ih | accessed p ih | atom p ih | lastArgument p ih =>
    exact ih nofun nofun
  | conditional p _ _ ih | join p _ _ _ ih | member p _ ih | index p _ ih | call p _ ih
  | nextArgument p _ ih =>
    obtain ⟨t, ts, e, h⟩ := ih nofun nofun
    exact ⟨t, _, by rw [tokens, e, List.cons_append], h⟩
  | unary op p => exact ⟨op.token, _, rfl, by cases op <;> rfl⟩
  | number | text | name | array | object | group => exact ⟨_, _, rfl, rfl⟩
  | lastPair key | nextPair key => exact ⟨key.token, _, rfl, by cases key <;> rfl⟩
  | noArguments | given => exact absurd rfl ha
  | noPairs | listed => exact absurd rfl hp

/-- An operand and what accesses it begin with no sign. -/
theorem Phrase.head?_ne_sign {c : Category} (p : Phrase c) (h : c = .layer .access ∨ c = .layer .atom)
    (op : UnaryOp) : p.tokens.head? ≠ some op.token := by
  induction p with
  | atom p ih => exact ih (.inr rfl)
  | member p _ ih | index p _ ih | call p _ ih =>
    obtain ⟨t, ts, e, -⟩ := p.opens nofun nofun
    have hne := ih (.inl rfl)
    rw [e] at hne
    rwa [tokens, e]
  | number | text | name | array | object | group => cases op <;> simp [tokens, UnaryOp.token]
  | operation | conditional | operand | join | accessed | unary | noArguments | given | lastArgument
  | nextArgument | noPairs | listed | lastPair | nextPair => simp at h

namespace Category

/-- What may stand behind a phrase that is complete. -/
@[simp] def Follows : Category → List Token → Prop
  | .layer l, ts => Stops l.strength ts
  | .arguments, ts | .someArguments, ts =>
    ts.head? = some (.mark .closeParen) ∨ ts.head? = some (.mark .closeBracket)
  | .pairs, ts | .somePairs, ts => ts.head? = some (.mark .closeBrace)

/-- What may stand behind a phrase, also one of a layer that is recursive on the left and continues
there. -/
@[simp] def Reaches : Category → List Token → Prop
  | .layer (.joined family), ts => Stops (family.level + 3) ts
  | .layer .access, ts => Stops 10 ts
  | c, ts => c.Follows ts

theorem Follows.reaches {c : Category} {ts : List Token} (h : c.Follows ts) : c.Reaches ts := by
  cases c with
  | layer l =>
    cases l with
    | joined family => exact h.mono (Nat.le_succ _)
    | access => exact h.mono (Nat.le_succ _)
    | conditional | unary | atom => exact h
  | arguments | someArguments | pairs | somePairs => exact h

end Category

namespace Phrase

variable {c : Category} {p q : Phrase c} {ts us r r' : List Token}

/-! ## Recursion on the left -/

/-- A production that is recursive on the left continues a phrase by the tokens. -/
inductive Step : {c : Category} → Phrase c → List Token → Phrase c → Prop where
  | join {family : Family} (left : Phrase (.layer (.joined family))) (op : Connective)
      (h : op.family = family) (right : Phrase (.layer family.operands)) :
      Step left (op.token :: right.tokens) (.join left op h right)
  | member (target : Phrase (.layer .access)) (s : String) :
      Step target [.mark .dot, .name s] (.member target s)
  | index (target : Phrase (.layer .access)) (key : Phrase (.layer .conditional)) :
      Step target (.mark .openBracket :: (key.tokens ++ [.mark .closeBracket])) (.index target key)
  | call (callee : Phrase (.layer .access)) (values : Phrase .arguments) :
      Step callee (.mark .openParen :: (values.tokens ++ [.mark .closeParen])) (.call callee values)

/-- Such productions one after the other. -/
inductive Grows : Phrase c → List Token → Phrase c → Prop where
  | refl (p : Phrase c) : Grows p [] p
  | step {p p' q : Phrase c} {ts us : List Token} (first : Step p ts p') (later : Grows p' us q) :
      Grows p (ts ++ us) q

theorem Step.tokens (h : Step p ts q) : q.tokens = p.tokens ++ ts := by
  cases h <;> rfl

theorem Step.length_lt (h : Step p ts q) : p.tokens.length < q.tokens.length := by
  cases h <;> simp [Phrase.tokens]

theorem Step.reaches (h : Step p ts q) (r : List Token) : c.Reaches (ts ++ r) := by
  cases h with
  | join left op h right => simp [h]
  | member | index | call => simp

theorem Step.not_follows (h : Step p ts q) (r : List Token) : ¬ c.Follows (ts ++ r) := by
  cases h with
  | join left op h right => simp [h]
  | member | index | call => simp

theorem Grows.reaches (h : Grows p ts q) (hr : c.Reaches r) : c.Reaches (ts ++ r) := by
  cases h with
  | refl => exact hr
  | step first later => rw [List.append_assoc]; exact first.reaches _

theorem Grows.snoc {q' : Phrase c} (h : Grows p ts q) (last : Step q us q') : Grows p (ts ++ us) q' := by
  induction h with
  | refl p => simpa using Grows.step last (.refl q')
  | step first later ih => rw [List.append_assoc]; exact .step first (ih last)

/-- One of two phrases grows to the other one, taking from what follows it as much as it must. -/
def Comparable (p q : Phrase c) (r r' : List Token) : Prop :=
  (∃ ts, Grows p ts q ∧ r = ts ++ r') ∨ ∃ ts, Grows q ts p ∧ r' = ts ++ r

theorem Comparable.of_eq (hp : p = q) (hr : r = r') : Comparable p q r r' :=
  .inl ⟨[], hp ▸ .refl p, hr⟩

/-- Before tokens that do not continue them, comparable phrases are equal. -/
theorem Comparable.eq (h : Comparable p q r r') (hr : c.Follows r) (hr' : c.Follows r') :
    p = q ∧ r = r' := by
  rcases h with ⟨ts, hg, rfl⟩ | ⟨ts, hg, rfl⟩
  · cases hg with
    | refl => exact ⟨rfl, rfl⟩
    | step first later =>
      rw [List.append_assoc] at hr
      exact absurd hr (first.not_follows _)
  · cases hg with
    | refl => exact ⟨rfl, rfl⟩
    | step first later =>
      rw [List.append_assoc] at hr'
      exact absurd hr' (first.not_follows _)

/-- A step after a phrase that is comparable to another one, when only that step can begin there. -/
theorem Comparable.step {p' : Phrase c} (h : Comparable p q (ts ++ r) r') (hs : Step p ts p')
    (hr' : c.Reaches r')
    (only : ∀ us x p'', Step p us p'' → c.Reaches x → ts ++ r = us ++ x → p'' = p' ∧ r = x) :
    Comparable p' q r r' := by
  rcases h with ⟨vs, hg, e⟩ | ⟨vs, hg, e⟩
  · cases hg with
    | refl => exact .inr ⟨ts, by simpa using Grows.step hs (.refl p'), e.symm⟩
    | step first later =>
      rw [List.append_assoc] at e
      obtain ⟨rfl, e'⟩ := only _ _ _ first (later.reaches hr') e
      exact .inl ⟨_, later, e'⟩
  · exact .inr ⟨vs ++ ts, hg.snoc hs, by rw [e, List.append_assoc]⟩

/-- A phrase that no step makes is comparable to every phrase if it is comparable to those that no
step makes. -/
theorem Comparable.of_base (hp : ∀ p₀ ts, ¬ Step p₀ ts p)
    (base : ∀ (q : Phrase c) r', (∀ q₀ ts, ¬ Step q₀ ts q) → c.Reaches r' →
      p.tokens ++ r = q.tokens ++ r' → Comparable p q r r')
    (hr' : c.Reaches r') (e : p.tokens ++ r = q.tokens ++ r') : Comparable p q r r' := by
  induction hn : q.tokens.length using Nat.strongRecOn generalizing q r' with
  | ind n ih =>
    by_cases hq : ∃ q₀ ts, Step q₀ ts q
    · obtain ⟨q₀, ts, hs⟩ := hq
      rw [hs.tokens, List.append_assoc] at e
      rcases ih _ (hn ▸ hs.length_lt) (hs.reaches r') e rfl with ⟨us, hg, rfl⟩ | ⟨us, hg, e'⟩
      · exact .inl ⟨us ++ ts, hg.snoc hs, (List.append_assoc ..).symm⟩
      · -- Only the phrase itself grows to a phrase that no step makes.
        have last : q₀ = p ∧ us = [] := by
          clear e e' ih hs
          induction hg with
          | refl => exact ⟨rfl, rfl⟩
          | step first later ih' =>
            obtain ⟨rfl, -⟩ := ih' hp base
            exact absurd first (hp _ _)
        obtain ⟨rfl, rfl⟩ := last
        exact .inl ⟨ts, by simpa using Grows.step hs (.refl q), e'.symm⟩
    · exact base q r' (fun q₀ ts hs => hq ⟨q₀, ts, hs⟩) hr' e

/-! ## One derivation -/

/-- Every phrase that begins the same tokens is comparable. -/
def Determined (p : Phrase c) : Prop :=
  ∀ (q : Phrase c) (r r' : List Token), c.Reaches r → c.Reaches r' → p.tokens ++ r = q.tokens ++ r' →
    Comparable p q r r'

theorem Determined.eq (h : Determined p) (hr : c.Follows r) (hr' : c.Follows r')
    (e : p.tokens ++ r = q.tokens ++ r') : p = q ∧ r = r' :=
  (h q r r' hr.reaches hr'.reaches e).eq hr hr'

/-- Tokens that are enclosed in two marks, the second of which ends what the first one began. -/
theorem Determined.enclosed {p q : Phrase c} {first last : Token} (h : p.Determined)
    (hlast : ∀ r, c.Follows (last :: r))
    (e : (first :: (p.tokens ++ [last])) ++ r = (first :: (q.tokens ++ [last])) ++ r') :
    p = q ∧ r = r' := by
  simp only [List.cons_append, List.append_assoc, List.cons.injEq, true_and] at e
  obtain ⟨rfl, e'⟩ := h.eq (hlast _) (hlast _) e
  exact ⟨rfl, (List.cons.inj e').2⟩

theorem Determined.operation {p : Phrase (.layer (.joined .coalesce))} (h : p.Determined) :
    (Phrase.operation p).Determined := by
  intro q r r' hr hr' e
  cases q with
  | operation q =>
    obtain ⟨rfl, rfl⟩ := h.eq (hr.mono (by decide)) (hr'.mono (by decide)) e
    exact .of_eq rfl rfl
  | conditional test yes no =>
    simp only [Phrase.tokens, List.append_assoc, List.cons_append] at e
    obtain ⟨-, rfl⟩ := h.eq (hr.mono (by decide)) (by simp) e
    simp at hr

theorem Determined.conditional {test : Phrase (.layer (.joined .coalesce))}
    {yes no : Phrase (.layer .conditional)} (htest : test.Determined) (hyes : yes.Determined)
    (hno : no.Determined) : (Phrase.conditional test yes no).Determined := by
  intro q r r' hr hr' e
  cases q with
  | operation q =>
    simp only [Phrase.tokens, List.append_assoc, List.cons_append] at e
    obtain ⟨-, rfl⟩ := htest.eq (by simp) (hr'.mono (by decide)) e
    simp at hr'
  | conditional test' yes' no' =>
    simp only [Phrase.tokens, List.append_assoc, List.cons_append] at e
    obtain ⟨rfl, e₁⟩ := htest.eq (by simp) (by simp) e
    obtain ⟨rfl, e₂⟩ := hyes.eq (by simp) (by simp) (List.cons.inj e₁).2
    obtain ⟨rfl, rfl⟩ := hno.eq hr hr' (List.cons.inj e₂).2
    exact .of_eq rfl rfl

theorem Determined.operand {family : Family} {p : Phrase (.layer family.operands)} (h : p.Determined) :
    (Phrase.operand p).Determined := by
  intro q r r' hr hr' e
  refine Comparable.of_base nofun ?_ hr' e
  intro q r' hq hr' e
  cases q with
  | operand q =>
    obtain ⟨rfl, rfl⟩ := h.eq (by simpa using hr) (by simpa using hr') e
    exact .of_eq rfl rfl
  | join left op h right => exact absurd (.join left op h right) (hq left _)

theorem Determined.join {family : Family} {left : Phrase (.layer (.joined family))} {op : Connective}
    {h : op.family = family} {right : Phrase (.layer family.operands)} (hleft : left.Determined)
    (hright : right.Determined) : (Phrase.join left op h right).Determined := by
  intro q r r' hr hr' e
  rw [Phrase.tokens, List.append_assoc] at e
  refine (hleft q _ _ (by simp [h]) hr' e).step (.join left op h right) hr' ?_
  intro us x p'' hs hx e
  cases hs with
  | join _ op' h' right' =>
    obtain ⟨eop, e'⟩ := List.cons.inj e
    obtain rfl := Connective.eq_of_token eop
    obtain ⟨rfl, rfl⟩ := hright.eq (by simpa using hr) (by simpa using hx) e'
    exact ⟨rfl, rfl⟩

theorem Determined.accessed {p : Phrase (.layer .access)} (h : p.Determined) :
    (Phrase.accessed p).Determined := by
  intro q r r' hr hr' e
  cases q with
  | accessed q =>
    obtain ⟨rfl, rfl⟩ := h.eq hr hr' e
    exact .of_eq rfl rfl
  | unary op q =>
    obtain ⟨t, ts, ht, -⟩ := p.opens nofun nofun
    have hne := p.head?_ne_sign (.inl rfl) op
    rw [ht] at hne
    rw [Phrase.tokens, ht] at e
    exact absurd (congrArg some (List.cons.inj e).1) hne

theorem Determined.unary {op : UnaryOp} {p : Phrase (.layer .unary)} (h : p.Determined) :
    (Phrase.unary op p).Determined := by
  intro q r r' hr hr' e
  cases q with
  | accessed q =>
    obtain ⟨t, ts, ht, -⟩ := q.opens nofun nofun
    have hne := q.head?_ne_sign (.inl rfl) op
    rw [ht] at hne
    rw [Phrase.tokens, Phrase.tokens, ht] at e
    exact absurd (congrArg some (List.cons.inj e).1.symm) hne
  | unary op' q =>
    obtain rfl := UnaryOp.eq_of_token (List.cons.inj e).1
    obtain ⟨rfl, rfl⟩ := h.eq hr hr' (List.cons.inj e).2
    exact .of_eq rfl rfl

theorem Determined.atom {p : Phrase (.layer .atom)} (h : p.Determined) : (Phrase.atom p).Determined := by
  intro q r r' hr hr' e
  refine Comparable.of_base nofun ?_ hr' e
  intro q r' hq hr' e
  cases q with
  | atom q =>
    obtain ⟨rfl, rfl⟩ := h.eq hr hr' e
    exact .of_eq rfl rfl
  | member target s => exact absurd (.member target s) (hq target _)
  | index target key => exact absurd (.index target key) (hq target _)
  | call callee values => exact absurd (.call callee values) (hq callee _)

theorem Determined.member {target : Phrase (.layer .access)} {s : String} (h : target.Determined) :
    (Phrase.member target s).Determined := by
  intro q r r' hr hr' e
  rw [Phrase.tokens, List.append_assoc] at e
  refine (h q _ _ (by simp) hr' e).step (.member target s) hr' ?_
  intro us x p'' hs hx e
  cases hs with
  | member => simp_all
  | index | call => simp at e

theorem Determined.index {target : Phrase (.layer .access)} {key : Phrase (.layer .conditional)}
    (h : target.Determined) (hkey : key.Determined) : (Phrase.index target key).Determined := by
  intro q r r' hr hr' e
  rw [Phrase.tokens, List.append_assoc] at e
  refine (h q _ _ (by simp) hr' e).step (.index target key) hr' ?_
  intro us x p'' hs hx e
  cases hs with
  | index _ key' =>
    obtain ⟨rfl, rfl⟩ := hkey.enclosed (by simp) e
    exact ⟨rfl, rfl⟩
  | member | call => simp at e

theorem Determined.call {callee : Phrase (.layer .access)} {values : Phrase .arguments}
    (h : callee.Determined) (hvalues : values.Determined) : (Phrase.call callee values).Determined := by
  intro q r r' hr hr' e
  rw [Phrase.tokens, List.append_assoc] at e
  refine (h q _ _ (by simp) hr' e).step (.call callee values) hr' ?_
  intro us x p'' hs hx e
  cases hs with
  | call _ values' =>
    obtain ⟨rfl, rfl⟩ := hvalues.enclosed (by simp) e
    exact ⟨rfl, rfl⟩
  | member | index => simp at e

/-- An operand of one token. -/
theorem Determined.leaf {p : Phrase (.layer .atom)} {t : Token} (hp : p.tokens = [t])
    (only : ∀ (q : Phrase (.layer .atom)) ts, q.tokens = t :: ts → p = q) : p.Determined := by
  intro q r r' hr hr' e
  obtain ⟨u, us, hu, -⟩ := q.opens nofun nofun
  rw [hp, hu] at e
  obtain ⟨rfl, e'⟩ := List.cons.inj e
  obtain rfl := only q us hu
  rw [hp] at hu
  obtain rfl := (List.cons.inj hu).2
  exact .of_eq rfl e'

theorem Determined.array {elements : Phrase .arguments} (h : elements.Determined) :
    (Phrase.array elements).Determined := by
  intro q r r' hr hr' e
  cases q with
  | array elements' =>
    obtain ⟨rfl, rfl⟩ := h.enclosed (by simp) e
    exact .of_eq rfl rfl
  | number | text | name | object | group => simp [Phrase.tokens] at e

theorem Determined.object {entries : Phrase .pairs} (h : entries.Determined) :
    (Phrase.object entries).Determined := by
  intro q r r' hr hr' e
  cases q with
  | object entries' =>
    obtain ⟨rfl, rfl⟩ := h.enclosed (by simp) e
    exact .of_eq rfl rfl
  | number | text | name | array | group => simp [Phrase.tokens] at e

theorem Determined.group {p : Phrase (.layer .conditional)} (h : p.Determined) :
    (Phrase.group p).Determined := by
  intro q r r' hr hr' e
  cases q with
  | group p' =>
    obtain ⟨rfl, rfl⟩ := h.enclosed (by simp) e
    exact .of_eq rfl rfl
  | number | text | name | array | object => simp [Phrase.tokens] at e

/-- What stands behind arguments continues no expression and begins none. -/
theorem stops_of_follows (h : Category.someArguments.Follows r) : Stops 1 r := by
  cases r with
  | nil => exact Token.stops_nil
  | cons t r => rcases h with h | h <;> obtain rfl := Option.some.inj h <;> simp

theorem not_opens_of_follows {t : Token} {ts : List Token} (h : Category.arguments.Follows (t :: ts)) :
    t.opens = false := by
  rcases h with h | h <;> obtain rfl := Option.some.inj h <;> rfl

theorem Determined.noArguments : noArguments.Determined := by
  intro q r r' hr hr' e
  cases q with
  | noArguments => exact .of_eq rfl e
  | given q =>
    obtain ⟨t, ts, ht, hopens⟩ := q.opens nofun nofun
    rw [Phrase.tokens, Phrase.tokens, ht, List.nil_append, List.cons_append] at e
    rw [e] at hr
    rw [not_opens_of_follows hr] at hopens
    cases hopens

theorem Determined.given {p : Phrase .someArguments} (h : p.Determined) : (Phrase.given p).Determined := by
  intro q r r' hr hr' e
  cases q with
  | given q =>
    obtain ⟨rfl, rfl⟩ := h.eq hr hr' e
    exact .of_eq rfl rfl
  | noArguments =>
    obtain ⟨t, ts, ht, hopens⟩ := p.opens nofun nofun
    rw [Phrase.tokens, Phrase.tokens, ht, List.nil_append, List.cons_append] at e
    rw [← e] at hr'
    rw [not_opens_of_follows hr'] at hopens
    cases hopens

theorem Determined.lastArgument {p : Phrase (.layer .conditional)} (h : p.Determined) :
    (Phrase.lastArgument p).Determined := by
  intro q r r' hr hr' e
  cases q with
  | lastArgument q =>
    obtain ⟨rfl, rfl⟩ := h.eq (stops_of_follows hr) (stops_of_follows hr') e
    exact .of_eq rfl rfl
  | nextArgument q later =>
    rw [Phrase.tokens, Phrase.tokens, List.append_assoc] at e
    obtain ⟨-, rfl⟩ := h.eq (stops_of_follows hr) (by simp) e
    simp at hr

theorem Determined.nextArgument {p : Phrase (.layer .conditional)} {later : Phrase .someArguments}
    (h : p.Determined) (hlater : later.Determined) : (Phrase.nextArgument p later).Determined := by
  intro q r r' hr hr' e
  cases q with
  | lastArgument q =>
    rw [Phrase.tokens, Phrase.tokens, List.append_assoc] at e
    obtain ⟨-, rfl⟩ := h.eq (by simp) (stops_of_follows hr') e
    simp at hr'
  | nextArgument q later' =>
    rw [Phrase.tokens, Phrase.tokens, List.append_assoc, List.append_assoc] at e
    obtain ⟨rfl, e'⟩ := h.eq (by simp) (by simp) e
    obtain ⟨rfl, rfl⟩ := hlater.eq hr hr' (List.cons.inj e').2
    exact .of_eq rfl rfl

theorem stops_of_follows_pairs (h : Category.somePairs.Follows r) : Stops 1 r := by
  cases r with
  | nil => exact Token.stops_nil
  | cons t r => obtain rfl := Option.some.inj h; simp

theorem Determined.noPairs : noPairs.Determined := by
  intro q r r' hr hr' e
  cases q with
  | noPairs => exact .of_eq rfl e
  | listed q =>
    obtain ⟨t, ts, ht, hopens⟩ := q.opens nofun nofun
    rw [Phrase.tokens, Phrase.tokens, ht, List.nil_append, List.cons_append] at e
    rw [e] at hr
    obtain rfl := Option.some.inj hr
    cases hopens

theorem Determined.listed {p : Phrase .somePairs} (h : p.Determined) : (Phrase.listed p).Determined := by
  intro q r r' hr hr' e
  cases q with
  | listed q =>
    obtain ⟨rfl, rfl⟩ := h.eq hr hr' e
    exact .of_eq rfl rfl
  | noPairs =>
    obtain ⟨t, ts, ht, hopens⟩ := p.opens nofun nofun
    rw [Phrase.tokens, Phrase.tokens, ht, List.nil_append, List.cons_append] at e
    rw [← e] at hr'
    obtain rfl := Option.some.inj hr'
    cases hopens

theorem Determined.lastPair {key : Key} {value : Phrase (.layer .conditional)} (h : value.Determined) :
    (Phrase.lastPair key value).Determined := by
  intro q r r' hr hr' e
  cases q with
  | lastPair key' value' =>
    simp only [Phrase.tokens, List.cons_append, List.cons.injEq, true_and] at e
    obtain rfl := Key.eq_of_token e.1
    obtain ⟨rfl, rfl⟩ := h.eq (stops_of_follows_pairs hr) (stops_of_follows_pairs hr') e.2
    exact .of_eq rfl rfl
  | nextPair key' value' later =>
    simp only [Phrase.tokens, List.cons_append, List.append_assoc, List.cons.injEq, true_and] at e
    obtain ⟨-, rfl⟩ := h.eq (stops_of_follows_pairs hr) (by simp) e.2
    simp at hr

theorem Determined.nextPair {key : Key} {value : Phrase (.layer .conditional)}
    {later : Phrase .somePairs} (h : value.Determined) (hlater : later.Determined) :
    (Phrase.nextPair key value later).Determined := by
  intro q r r' hr hr' e
  cases q with
  | lastPair key' value' =>
    simp only [Phrase.tokens, List.cons_append, List.append_assoc, List.cons.injEq, true_and] at e
    obtain ⟨-, rfl⟩ := h.eq (by simp) (stops_of_follows_pairs hr') e.2
    simp at hr'
  | nextPair key' value' later' =>
    simp only [Phrase.tokens, List.cons_append, List.append_assoc, List.cons.injEq, true_and] at e
    obtain rfl := Key.eq_of_token e.1
    obtain ⟨rfl, e'⟩ := h.eq (by simp) (by simp) e.2
    obtain ⟨rfl, rfl⟩ := hlater.eq hr hr' (List.cons.inj e').2
    exact .of_eq rfl rfl

theorem determined (p : Phrase c) : p.Determined := by
  induction p with
  | operation p ih => exact ih.operation
  | conditional test yes no htest hyes hno => exact htest.conditional hyes hno
  | operand p ih => exact ih.operand
  | join left op h right hleft hright => exact hleft.join hright
  | accessed p ih => exact ih.accessed
  | unary op p ih => exact ih.unary
  | atom p ih => exact ih.atom
  | member target s ih => exact ih.member
  | index target key ih hkey => exact ih.index hkey
  | call callee values ih hvalues => exact ih.call hvalues
  | number | text | name => exact Determined.leaf rfl fun q ts h => by cases q <;> simp_all [tokens]
  | array elements ih => exact ih.array
  | object entries ih => exact ih.object
  | group p ih => exact ih.group
  | noArguments => exact .noArguments
  | given p ih => exact ih.given
  | lastArgument p ih => exact ih.lastArgument
  | nextArgument p later ih hlater => exact ih.nextArgument hlater
  | noPairs => exact .noPairs
  | listed p ih => exact ih.listed
  | lastPair key value ih => exact ih.lastPair
  | nextPair key value later ih hlater => exact ih.nextPair hlater

/-- A sequence of tokens has at most one derivation. -/
theorem eq_of_tokens {p q : Phrase (.layer .conditional)} (h : p.tokens = q.tokens) : p = q :=
  (p.determined.eq Token.stops_nil Token.stops_nil (by rw [h])).1

end Phrase
end PipelineTemplate
