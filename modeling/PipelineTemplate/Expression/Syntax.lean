import PipelineTemplate.Value.Basic

/-!
# Expressions

The syntax of expressions, in trees.
-/

namespace PipelineTemplate

inductive UnaryOp where
  | not | neg | plus
  deriving DecidableEq

/-- The operators that evaluate both operands. -/
inductive BinaryOp where
  | eq | strictEq | ne | strictNe | lt | le | gt | ge | add | sub | mul | div | mod
  deriving DecidableEq

/-- The operators that give one of their operands and may leave the second one alone. -/
inductive LogicalOp where
  | and | or | coalesce
  deriving DecidableEq

inductive Expr where
  | literal (v : Value)
  | name (s : String)
  /-- The member after a point. -/
  | member (target : Expr) (name : String)
  /-- The member in brackets. -/
  | index (target key : Expr)
  | unary (op : UnaryOp) (argument : Expr)
  | binary (op : BinaryOp) (left right : Expr)
  | logical (op : LogicalOp) (left right : Expr)
  | conditional (test yes no : Expr)
  | call (callee : Expr) (arguments : List Expr)
  | array (elements : List Expr)
  | object (properties : List (Value × Expr))

def UnaryOp.symbol : UnaryOp → String
  | .not => "!"
  | .neg => "-"
  | .plus => "+"

def BinaryOp.symbol : BinaryOp → String
  | .eq => "=="
  | .strictEq => "==="
  | .ne => "!="
  | .strictNe => "!=="
  | .lt => "<"
  | .le => "<="
  | .gt => ">"
  | .ge => ">="
  | .add => "+"
  | .sub => "-"
  | .mul => "*"
  | .div => "/"
  | .mod => "%"

def LogicalOp.symbol : LogicalOp → String
  | .and => "&&"
  | .or => "||"
  | .coalesce => "??"

end PipelineTemplate
