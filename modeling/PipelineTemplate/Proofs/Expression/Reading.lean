import PipelineTemplate.Expression.Grammar
import PipelineTemplate.Proofs.Expression.Unambiguity

/-!
# What the readers of expressions read

The equations of the readers, with their results taken without the proofs that less is left and
without the places of the failures.
-/

namespace PipelineTemplate.Reading

/-! ## Results -/

/-- What was read and what follows it. -/
def outcome {α : Type} {P : List Lexeme → Prop} :
    Except Unexpected (α × { rest : List Lexeme // P rest }) → Option (α × List Lexeme)
  | .ok (a, rest) => some (a, rest.1)
  | .error _ => none

section
variable {α β : Type} {P Q : List Lexeme → Prop}
  {r : Except Unexpected (α × { rest : List Lexeme // P rest })}

theorem property_of_outcome {a : α} {rest : List Lexeme} (h : outcome r = some (a, rest)) : P rest := by
  cases r with
  | error => cases h
  | ok r => cases h; exact r.2.2

theorem outcome_bind {f : α × { rest : List Lexeme // P rest } →
      Except Unexpected (β × { rest : List Lexeme // Q rest })}
    {g : α × List Lexeme → Option (β × List Lexeme)}
    (h : ∀ a rest hrest, outcome (f (a, ⟨rest, hrest⟩)) = g (a, rest)) :
    outcome (r >>= f) = (outcome r).bind g := by
  cases r with
  | error => rfl
  | ok r => exact h r.1 r.2.1 r.2.2

theorem outcome_map {f : α × { rest : List Lexeme // P rest } →
      Except Unexpected (β × { rest : List Lexeme // Q rest })} {g : α × List Lexeme → β × List Lexeme}
    (h : ∀ a rest hrest, outcome (f (a, ⟨rest, hrest⟩)) = some (g (a, rest))) :
    outcome (r >>= f) = (outcome r).map g := by
  rw [Option.map_eq_bind]
  exact outcome_bind h

/-- Another proof about what is left changes nothing. -/
theorem outcome_rewrap {f : α × { rest : List Lexeme // P rest } →
      Except Unexpected (α × { rest : List Lexeme // Q rest })}
    (h : ∀ a rest hrest, outcome (f (a, ⟨rest, hrest⟩)) = some (a, rest)) :
    outcome (r >>= f) = outcome r :=
  (outcome_map (g := id) h).trans Option.map_id_apply

end

/-- What follows a mark that comes first. -/
def expect (m : Mark) : List Lexeme → Option (List Lexeme)
  | ⟨.mark m', _⟩ :: rest => if m' = m then some rest else none
  | _ => none

@[simp] theorem expect_self (m : Mark) (start : Nat) (rest : List Lexeme) :
    expect m (⟨.mark m, start⟩ :: rest) = some rest := by
  rw [expect, if_pos rfl]

theorem of_expect {m : Mark} {ls rest : List Lexeme} (h : expect m ls = some rest) :
    ∃ start, ls = ⟨.mark m, start⟩ :: rest := by
  unfold expect at h
  split at h
  · split at h
    · rename_i hm
      cases h
      exact ⟨_, by rw [hm]⟩
    · cases h
  · cases h

/-! ## The tables of operators -/

theorem operatorAt?_token (op : Connective) :
    Expr.operatorAt? op.family.level op.token = some op.join := by
  rcases op with op | op <;> cases op <;> rfl

theorem of_operatorAt? {family : Family} {t : Token} {make : Expr → Expr → Expr}
    (h : Expr.operatorAt? family.level t = some make) :
    ∃ op : Connective, op.token = t ∧ op.family = family ∧ op.join = make := by
  have unique {op : Connective} (h : Expr.operatorAt? family.level op.token = some make) :
      op.family = family ∧ op.join = make := by
    rcases op with op | op <;> cases op <;> cases family <;>
      simp_all [Connective.token, Connective.family, Connective.join, Expr.operatorAt?, Expr.operator?,
        Family.level]
  cases t with
  | logical op => exact ⟨.logical op, rfl, unique h⟩
  | binary op => exact ⟨.binary op, rfl, unique h⟩
  | number | text | name | mark => simp [Expr.operatorAt?, Expr.operator?] at h

theorem unaryOperator?_token (op : UnaryOp) : Expr.unaryOperator? op.token = some op := by
  cases op <;> rfl

theorem of_unaryOperator? {t : Token} {op : UnaryOp} (h : Expr.unaryOperator? t = some op) :
    op.token = t := by
  unfold Expr.unaryOperator? at h
  split at h <;> cases h <;> rfl

theorem of_propertyKey? {t : Token} {v : Value} (h : Expr.propertyKey? t = some v) :
    ∃ key : Key, key.token = t := by
  cases t with
  | name s => exact ⟨.name s, rfl⟩
  | text s => exact ⟨.text s, rfl⟩
  | number n => exact ⟨.number n, rfl⟩
  | mark | binary | logical => cases h

/-! ## The readers -/

def expression (ls : List Lexeme) : Option (Expr × List Lexeme) := outcome (Expr.expression ls)

def operation (level : Nat) (ls : List Lexeme) : Option (Expr × List Lexeme) :=
  outcome (Expr.operation level ls)

def continued (level : Nat) (left : Expr) (ls : List Lexeme) : Option (Expr × List Lexeme) :=
  outcome (Expr.continued level left ls)

def unary (ls : List Lexeme) : Option (Expr × List Lexeme) := outcome (Expr.unaryOperation ls)

def accessed (base : Expr) (ls : List Lexeme) : Option (Expr × List Lexeme) :=
  outcome (Expr.accessed base ls)

def atom (ls : List Lexeme) : Option (Expr × List Lexeme) := outcome (Expr.atom ls)

def arguments (closing : Mark) (ls : List Lexeme) : Option (List Expr × List Lexeme) :=
  outcome (Expr.arguments closing ls)

def laterArguments (closing : Mark) (ls : List Lexeme) : Option (List Expr × List Lexeme) :=
  outcome (Expr.moreArguments closing ls)

/-- An argument and those that follow it. -/
def someArguments (closing : Mark) (ls : List Lexeme) : Option (List Expr × List Lexeme) :=
  (expression ls).bind fun first =>
    (laterArguments closing first.2).map fun later => (first.1 :: later.1, later.2)

def pairs (ls : List Lexeme) : Option (List (Value × Expr) × List Lexeme) :=
  outcome (Expr.properties ls)

section
variable {ls rest : List Lexeme} {e : Expr}

theorem length_expression (h : expression ls = some (e, rest)) : rest.length < ls.length :=
  property_of_outcome h

theorem length_operation {level : Nat} (h : operation level ls = some (e, rest)) :
    rest.length < ls.length := property_of_outcome h

theorem length_atom (h : atom ls = some (e, rest)) : rest.length < ls.length := property_of_outcome h

theorem length_arguments {closing : Mark} {es : List Expr}
    (h : arguments closing ls = some (es, rest)) : rest.length < ls.length := property_of_outcome h

end

section
variable {level : Nat} {lexeme : Lexeme} {rest : List Lexeme}

theorem expression_eq (ls : List Lexeme) :
    expression ls = (operation 0 ls).bind fun test =>
      (expect .question test.2).elim (some test) fun rest =>
        (expression rest).bind fun yes =>
          (expect .colon yes.2).bind fun rest => (expression rest).map fun no =>
            (.conditional test.1 yes.1 no.1, no.2) := by
  rw [expression, Expr.expression]
  refine outcome_bind fun test rest h => ?_
  rcases rest with _ | ⟨⟨token, start⟩, rest⟩
  · rfl
  cases token with
  | mark m =>
    cases m with
    | question =>
      refine outcome_bind fun yes rest h => ?_
      rcases rest with _ | ⟨⟨token, start⟩, rest⟩
      · rfl
      cases token with
      | mark m =>
        cases m with
        | colon => exact outcome_map fun _ _ _ => rfl
        | _ => rfl
      | _ => rfl
    | _ => rfl
  | _ => rfl

theorem operation_eq (h : level < 7) (ls : List Lexeme) :
    operation level ls = (operation (level + 1) ls).bind fun p => continued level p.1 p.2 := by
  rw [operation, Expr.operation, if_neg (by omega)]
  exact outcome_bind fun left rest _ => outcome_rewrap fun _ _ _ => rfl

theorem operation_last (ls : List Lexeme) : operation 7 ls = unary ls := by
  rw [operation, Expr.operation, if_pos (by decide), unary]

theorem continued_nil (left : Expr) : continued level left [] = some (left, []) := by
  rw [continued, Expr.continued]; rfl

theorem continued_stop (left : Expr) (h : Expr.operatorAt? level lexeme.token = none) :
    continued level left (lexeme :: rest) = some (left, lexeme :: rest) := by
  rw [continued, Expr.continued, h]; rfl

theorem continued_operator (left : Expr) {make : Expr → Expr → Expr}
    (h : Expr.operatorAt? level lexeme.token = some make) :
    continued level left (lexeme :: rest) =
      (operation (level + 1) rest).bind fun p => continued level (make left p.1) p.2 := by
  rw [continued, Expr.continued, h]
  exact outcome_bind fun right rest _ => outcome_rewrap fun _ _ _ => rfl

theorem unary_nil : unary [] = none := by
  rw [unary, Expr.unaryOperation]; rfl

theorem unary_sign {op : UnaryOp} (h : Expr.unaryOperator? lexeme.token = some op) :
    unary (lexeme :: rest) = (unary rest).map fun p => (.unary op p.1, p.2) := by
  rw [unary, Expr.unaryOperation, h]
  exact outcome_map fun _ _ _ => rfl

theorem unary_atom (h : Expr.unaryOperator? lexeme.token = none) :
    unary (lexeme :: rest) = (atom (lexeme :: rest)).bind fun p => accessed p.1 p.2 := by
  rw [unary, Expr.unaryOperation, h]
  exact outcome_bind fun base rest _ => outcome_rewrap fun _ _ _ => rfl

theorem accessed_member (base : Expr) (i j : Nat) (s : String) :
    accessed base (⟨.mark .dot, i⟩ :: ⟨.name s, j⟩ :: rest) = accessed (.member base s) rest := by
  rw [accessed, Expr.accessed]
  exact outcome_rewrap fun _ _ _ => rfl

theorem accessed_index (base : Expr) (i : Nat) :
    accessed base (⟨.mark .openBracket, i⟩ :: rest) = (expression rest).bind fun key =>
      (expect .closeBracket key.2).bind fun rest => accessed (.index base key.1) rest := by
  rw [accessed, Expr.accessed]
  refine outcome_bind fun key rest h => ?_
  rcases rest with _ | ⟨⟨token, start⟩, rest⟩
  · rfl
  cases token with
  | mark m =>
    cases m with
    | closeBracket => exact outcome_rewrap fun _ _ _ => rfl
    | _ => rfl
  | _ => rfl

theorem accessed_call (base : Expr) (i : Nat) :
    accessed base (⟨.mark .openParen, i⟩ :: rest) =
      (arguments .closeParen rest).bind fun values => accessed (.call base values.1) values.2 := by
  rw [accessed, Expr.accessed]
  exact outcome_bind fun _ _ _ => outcome_rewrap fun _ _ _ => rfl

theorem accessed_stop (base : Expr) {ls : List Lexeme} (h : Token.Stops 9 (ls.map Lexeme.token)) :
    accessed base ls = some (base, ls) := by
  rcases ls with _ | ⟨⟨token, start⟩, rest⟩
  · rw [accessed, Expr.accessed]
    · rfl
    all_goals simp
  · have hs : token.strength < 9 := by simpa using h
    rw [accessed, Expr.accessed]
    · rfl
    all_goals (intros; simp_all)

/-- What continues an operand. -/
theorem of_accessed {base : Expr} {ls : List Lexeme} {r : Expr × List Lexeme}
    (h : accessed base ls = some r) (hs : ¬ Token.Stops 9 (ls.map Lexeme.token)) :
    (∃ i rest, ls = ⟨.mark .openBracket, i⟩ :: rest) ∨ (∃ i rest, ls = ⟨.mark .openParen, i⟩ :: rest) ∨
      ∃ s i j rest, ls = ⟨.mark .dot, i⟩ :: ⟨.name s, j⟩ :: rest := by
  rcases ls with _ | ⟨⟨token, i⟩, ls⟩
  · simp at hs
  cases token with
  | mark m =>
    cases m with
    | openBracket => exact .inl ⟨i, ls, rfl⟩
    | openParen => exact .inr (.inl ⟨i, ls, rfl⟩)
    | dot =>
      rw [accessed, Expr.accessed.eq_def] at h
      rcases ls with _ | ⟨⟨token, j⟩, ls⟩
      · cases h
      cases token with
      | name s => exact .inr (.inr ⟨s, i, j, ls, rfl⟩)
      | _ => cases h
    | _ => exact absurd (by simp [Token.strength]) hs
  | number | text | name => exact absurd (by simp [Token.strength]) hs
  | binary op => exact absurd (Token.stops_cons.2 (Connective.strength_lt (.binary op))) hs
  | logical op => exact absurd (Token.stops_cons.2 (Connective.strength_lt (.logical op))) hs

theorem atom_number (n : Number.Numeric) (i : Nat) :
    atom (⟨.number n, i⟩ :: rest) = some (.literal (.number n), rest) := by
  rw [atom, Expr.atom]; rfl

theorem atom_text (s : String) (i : Nat) :
    atom (⟨.text s, i⟩ :: rest) = some (.literal (.text s), rest) := by
  rw [atom, Expr.atom]; rfl

theorem atom_name (s : String) (i : Nat) : atom (⟨.name s, i⟩ :: rest) = some (.name s, rest) := by
  rw [atom, Expr.atom]; rfl

theorem atom_array (i : Nat) : atom (⟨.mark .openBracket, i⟩ :: rest) =
    (arguments .closeBracket rest).map fun p => (.array p.1, p.2) := by
  rw [atom, Expr.atom]
  exact outcome_map fun _ _ _ => rfl

theorem atom_empty (i j : Nat) :
    atom (⟨.mark .openBrace, i⟩ :: ⟨.mark .closeBrace, j⟩ :: rest) = some (.object [], rest) := by
  rw [atom, Expr.atom]; rfl

theorem atom_object (i : Nat) (h : expect .closeBrace rest = none) :
    atom (⟨.mark .openBrace, i⟩ :: rest) = (pairs rest).map fun p => (.object p.1, p.2) := by
  rw [atom, Expr.atom]
  · exact outcome_map fun _ _ _ => rfl
  · intros; simp_all

theorem atom_group (i : Nat) : atom (⟨.mark .openParen, i⟩ :: rest) =
    (expression rest).bind fun inner =>
      (expect .closeParen inner.2).map fun rest => (inner.1, rest) := by
  rw [atom, Expr.atom]
  refine outcome_bind fun inner rest h => ?_
  rcases rest with _ | ⟨⟨token, start⟩, rest⟩
  · rfl
  cases token with
  | mark m => cases m <;> rfl
  | _ => rfl

/-- The marks that begin an operand. -/
theorem of_atom_mark {m : Mark} {i : Nat} {r : Expr × List Lexeme} (h : atom (⟨.mark m, i⟩ :: rest) = some r) :
    m = .openParen ∨ m = .openBracket ∨ m = .openBrace := by
  rw [atom, Expr.atom.eq_def] at h
  cases m with
  | openParen => exact .inl rfl
  | openBracket => exact .inr (.inl rfl)
  | openBrace => exact .inr (.inr rfl)
  | _ => cases h

theorem atom_binary (op : BinaryOp) (i : Nat) : atom (⟨.binary op, i⟩ :: rest) = none := by
  rw [atom, Expr.atom.eq_def]; rfl

theorem atom_logical (op : LogicalOp) (i : Nat) : atom (⟨.logical op, i⟩ :: rest) = none := by
  rw [atom, Expr.atom.eq_def]; rfl

theorem atom_nil : atom [] = none := by
  rw [atom, Expr.atom.eq_def]; rfl

theorem arguments_nil (closing : Mark) : arguments closing [] = none := by
  rw [arguments, Expr.arguments]; rfl

theorem arguments_close (closing : Mark) (i : Nat) :
    arguments closing (⟨.mark closing, i⟩ :: rest) = some ([], rest) := by
  rw [arguments, Expr.arguments, if_pos rfl]; rfl

theorem arguments_some {closing : Mark} (h : lexeme.token ≠ .mark closing) :
    arguments closing (lexeme :: rest) = someArguments closing (lexeme :: rest) := by
  rw [arguments, Expr.arguments, if_neg h]
  exact outcome_bind fun first rest _ => outcome_map fun _ _ _ => rfl

theorem laterArguments_nil (closing : Mark) : laterArguments closing [] = none := by
  rw [laterArguments, Expr.moreArguments]; rfl

theorem laterArguments_close (closing : Mark) (i : Nat) :
    laterArguments closing (⟨.mark closing, i⟩ :: rest) = some ([], rest) := by
  rw [laterArguments, Expr.moreArguments, if_pos rfl]; rfl

theorem laterArguments_comma {closing : Mark} (h : closing ≠ .comma) (i : Nat) :
    laterArguments closing (⟨.mark .comma, i⟩ :: rest) = someArguments closing rest := by
  rw [laterArguments, Expr.moreArguments, if_neg (by simp [h.symm]), if_pos rfl]
  exact outcome_bind fun first rest _ => outcome_map fun _ _ _ => rfl

theorem laterArguments_other {closing : Mark} (hc : lexeme.token ≠ .mark closing)
    (h : lexeme.token ≠ .mark .comma) : laterArguments closing (lexeme :: rest) = none := by
  rw [laterArguments, Expr.moreArguments, if_neg hc, if_neg h]; rfl

theorem pairs_key (key : Key) (i j : Nat) :
    pairs (⟨key.token, i⟩ :: ⟨.mark .colon, j⟩ :: rest) = (expression rest).bind fun value =>
      ((expect .closeBrace value.2).map fun rest => ([(key.value, value.1)], rest)).or
        ((expect .comma value.2).bind fun rest => (pairs rest).map fun later =>
          ((key.value, value.1) :: later.1, later.2)) := by
  have hkey : Expr.propertyKey? key.token = some key.value := by cases key <;> rfl
  rw [pairs, Expr.properties, hkey]
  refine outcome_bind fun value rest h => ?_
  rcases rest with _ | ⟨⟨token, start⟩, rest⟩
  · rfl
  cases token with
  | mark m =>
    cases m with
    | closeBrace => rfl
    | comma => exact outcome_map fun _ _ _ => rfl
    | _ => rfl
  | _ => rfl

theorem of_pairs {ls : List Lexeme} {r : List (Value × Expr) × List Lexeme} (h : pairs ls = some r) :
    ∃ key i j rest, ls = ⟨Key.token key, i⟩ :: ⟨.mark .colon, j⟩ :: rest := by
  cases ls with
  | nil => rw [pairs, Expr.properties] at h; cases h
  | cons lexeme ls =>
    cases hkey : Expr.propertyKey? lexeme.token with
    | none => rw [pairs, Expr.properties, hkey] at h; cases h
    | some v =>
      obtain ⟨key, hk⟩ := of_propertyKey? hkey
      rw [pairs, Expr.properties, hkey] at h
      cases ls with
      | nil => cases h
      | cons second ls =>
        obtain ⟨token, start⟩ := second
        cases token with
        | mark m =>
          cases m with
          | colon => exact ⟨key, lexeme.start, start, ls, by rw [hk]⟩
          | _ => cases h
        | _ => cases h

end

end PipelineTemplate.Reading
