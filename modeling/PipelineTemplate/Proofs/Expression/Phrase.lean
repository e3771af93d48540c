import PipelineTemplate.Expression.Token

/-!
# The grammar of expressions

The derivations of the grammar as trees: a phrase spells a sequence of tokens and prescribes a syntax
tree. The layers of operators between two operands are recursive on the left, as member access and
calls are; the conditional and the unary operators are recursive on the right.
-/

namespace PipelineTemplate

/-- The families of operators between two operands, from the one that binds least. -/
inductive Family where
  | coalesce | or | and | equality | order | sum | product
  deriving DecidableEq

/-- How many families bind less. -/
def Family.level : Family → Nat
  | .coalesce => 0
  | .or => 1
  | .and => 2
  | .equality => 3
  | .order => 4
  | .sum => 5
  | .product => 6

/-- An operator between two operands. -/
inductive Connective where
  | logical (op : LogicalOp)
  | binary (op : BinaryOp)
  deriving DecidableEq

namespace Connective

def token : Connective → Token
  | .logical op => .logical op
  | .binary op => .binary op

def join : Connective → Expr → Expr → Expr
  | .logical op => .logical op
  | .binary op => .binary op

def family : Connective → Family
  | .logical .coalesce => .coalesce
  | .logical .or => .or
  | .logical .and => .and
  | .binary .eq | .binary .strictEq | .binary .ne | .binary .strictNe => .equality
  | .binary .lt | .binary .le | .binary .gt | .binary .ge => .order
  | .binary .add | .binary .sub => .sum
  | .binary .mul | .binary .div | .binary .mod => .product

theorem eq_of_token {a b : Connective} (h : a.token = b.token) : a = b := by
  cases a <;> cases b <;> simp_all [token]

end Connective

def UnaryOp.token : UnaryOp → Token
  | .not => .mark .bang
  | .neg => .binary .sub
  | .plus => .binary .add

theorem UnaryOp.eq_of_token {a b : UnaryOp} (h : a.token = b.token) : a = b := by
  cases a <;> cases b <;> simp_all [UnaryOp.token]

/-- The key of a pair in an object. -/
inductive Key where
  | name (s : String)
  | text (s : String)
  | number (n : Number.Numeric)

namespace Key

def token : Key → Token
  | .name s => .name s
  | .text s => .text s
  | .number n => .number n

/-- A name stands for its text. -/
def value : Key → Value
  | .name s | .text s => .text s
  | .number n => .number n

theorem eq_of_token {a b : Key} (h : a.token = b.token) : a = b := by
  cases a <;> cases b <;> simp_all [token]

end Key

/-- The layers of the grammar, from the one that binds least. -/
inductive Layer where
  | conditional
  | joined (family : Family)
  | unary | access | atom
  deriving DecidableEq

/-- The layer of what the operators of a family join. -/
def Family.operands : Family → Layer
  | .coalesce => .joined .or
  | .or => .joined .and
  | .and => .joined .equality
  | .equality => .joined .order
  | .order => .joined .sum
  | .sum => .joined .product
  | .product => .unary

/-- What the grammar derives phrases of. -/
inductive Category where
  | layer (layer : Layer)
  /-- Expressions between commas, perhaps none. -/
  | arguments
  | someArguments
  /-- Pairs between commas, perhaps none. -/
  | pairs
  | somePairs

/-- What a phrase of a category prescribes. -/
abbrev Category.Tree : Category → Type
  | .layer _ => Expr
  | .arguments | .someArguments => List Expr
  | .pairs | .somePairs => List (Value × Expr)

/-- A derivation; its constructors are the productions of the grammar. -/
inductive Phrase : Category → Type where
  | operation (p : Phrase (.layer (.joined .coalesce))) : Phrase (.layer .conditional)
  | conditional (test : Phrase (.layer (.joined .coalesce)))
      (yes no : Phrase (.layer .conditional)) : Phrase (.layer .conditional)
  | operand {family : Family} (p : Phrase (.layer family.operands)) :
      Phrase (.layer (.joined family))
  | join {family : Family} (left : Phrase (.layer (.joined family))) (op : Connective)
      (h : op.family = family) (right : Phrase (.layer family.operands)) :
      Phrase (.layer (.joined family))
  | accessed (p : Phrase (.layer .access)) : Phrase (.layer .unary)
  | unary (op : UnaryOp) (p : Phrase (.layer .unary)) : Phrase (.layer .unary)
  | atom (p : Phrase (.layer .atom)) : Phrase (.layer .access)
  | member (target : Phrase (.layer .access)) (s : String) : Phrase (.layer .access)
  | index (target : Phrase (.layer .access)) (key : Phrase (.layer .conditional)) :
      Phrase (.layer .access)
  | call (callee : Phrase (.layer .access)) (values : Phrase .arguments) : Phrase (.layer .access)
  | number (n : Number.Numeric) : Phrase (.layer .atom)
  | text (s : String) : Phrase (.layer .atom)
  | name (s : String) : Phrase (.layer .atom)
  | array (elements : Phrase .arguments) : Phrase (.layer .atom)
  | object (entries : Phrase .pairs) : Phrase (.layer .atom)
  | group (p : Phrase (.layer .conditional)) : Phrase (.layer .atom)
  | noArguments : Phrase .arguments
  | given (p : Phrase .someArguments) : Phrase .arguments
  | lastArgument (p : Phrase (.layer .conditional)) : Phrase .someArguments
  | nextArgument (p : Phrase (.layer .conditional)) (later : Phrase .someArguments) :
      Phrase .someArguments
  | noPairs : Phrase .pairs
  | listed (p : Phrase .somePairs) : Phrase .pairs
  | lastPair (key : Key) (value : Phrase (.layer .conditional)) : Phrase .somePairs
  | nextPair (key : Key) (value : Phrase (.layer .conditional)) (later : Phrase .somePairs) :
      Phrase .somePairs

namespace Phrase

/-- The tokens that a phrase spells. -/
def tokens : {c : Category} → Phrase c → List Token
  | _, operation p => p.tokens
  | _, conditional test yes no =>
    test.tokens ++ .mark .question :: (yes.tokens ++ .mark .colon :: no.tokens)
  | _, operand p => p.tokens
  | _, join left op _ right => left.tokens ++ op.token :: right.tokens
  | _, accessed p => p.tokens
  | _, unary op p => op.token :: p.tokens
  | _, atom p => p.tokens
  | _, member target s => target.tokens ++ [.mark .dot, .name s]
  | _, index target key =>
    target.tokens ++ .mark .openBracket :: (key.tokens ++ [.mark .closeBracket])
  | _, call callee values =>
    callee.tokens ++ .mark .openParen :: (values.tokens ++ [.mark .closeParen])
  | _, number n => [.number n]
  | _, text s => [.text s]
  | _, name s => [.name s]
  | _, array elements => .mark .openBracket :: (elements.tokens ++ [.mark .closeBracket])
  | _, object entries => .mark .openBrace :: (entries.tokens ++ [.mark .closeBrace])
  | _, group p => .mark .openParen :: (p.tokens ++ [.mark .closeParen])
  | _, noArguments => []
  | _, given p => p.tokens
  | _, lastArgument p => p.tokens
  | _, nextArgument p later => p.tokens ++ .mark .comma :: later.tokens
  | _, noPairs => []
  | _, listed p => p.tokens
  | _, lastPair key value => key.token :: .mark .colon :: value.tokens
  | _, nextPair key value later =>
    key.token :: .mark .colon :: (value.tokens ++ .mark .comma :: later.tokens)

/-- The syntax tree that a phrase prescribes. -/
def tree : {c : Category} → Phrase c → c.Tree
  | _, operation p => p.tree
  | _, conditional test yes no => .conditional test.tree yes.tree no.tree
  | _, operand p => p.tree
  | _, join left op _ right => op.join left.tree right.tree
  | _, accessed p => p.tree
  | _, unary op p => .unary op p.tree
  | _, atom p => p.tree
  | _, member target s => .member target.tree s
  | _, index target key => .index target.tree key.tree
  | _, call callee values => .call callee.tree values.tree
  | _, number n => .literal (.number n)
  | _, text s => .literal (.text s)
  | _, name s => .name s
  | _, array elements => .array elements.tree
  | _, object entries => .object entries.tree
  | _, group p => p.tree
  | _, noArguments => []
  | _, given p => p.tree
  | _, lastArgument p => [p.tree]
  | _, nextArgument p later => p.tree :: later.tree
  | _, noPairs => []
  | _, listed p => p.tree
  | _, lastPair key value => [(key.value, value.tree)]
  | _, nextPair key value later => (key.value, value.tree) :: later.tree

end Phrase
end PipelineTemplate
