import PipelineTemplate.Expression.Evaluation
import PipelineTemplate.Proofs.Number.Arithmetic
import PipelineTemplate.Proofs.Value.Inert

/-!
# Operators and their failures

Operands count for numbers, and the operands of an arithmetic operator are excessive if an integer among
them, or their quotient, is too large for the doubles that the operator takes, or if an infinity is
divided with a remainder. An operator fails on excessive operands and gives a value for all others.
-/

namespace PipelineTemplate.BinaryOp

open Number (Numeric overflow)

/-- Numbers that an arithmetic operator has no value for. No divisor is zero then. -/
def Unfit (op : BinaryOp) (a b : Numeric) : Prop :=
  match op with
  | .add | .sub | .mul => Numeric.Mixed a b ∧ (a.Huge ∨ b.Huge)
  | .div => b.isZero = false ∧ (Numeric.Mixed a b ∧ (a.Huge ∨ b.Huge) ∨
      ∃ m n, a = .int m ∧ b = .int n ∧ overflow ≤ |(m / n : ℚ)|)
  | .mod => b.isZero = false ∧ (a.Huge ∨ b.Huge ∨ ∃ negative, a = .float (.infinite negative))
  | _ => False

/-- Operands that an operator has no value for; a text beside a plus sign makes it a concatenation. -/
def Excessive (op : BinaryOp) (left right : Value) : Prop :=
  ¬ (op = .add ∧ (left.isText ∨ right.isText)) ∧ op.Unfit (operand left) (operand right)

theorem operand_isNaN (v : Value) : (operand v).isNaN = false := by
  unfold operand
  split
  · rfl
  · next h => exact Bool.eq_false_iff.2 h

/-- A division by zero does not fail. -/
theorem guarded_fails {e : Except Numeric.Undefined Numeric} {b : Numeric} {unfit : Prop}
    (h : b.isZero = false → (Numeric.Fails e ↔ unfit)) :
    Numeric.Fails (if b.isZero then .ok none else e.map some) ↔ b.isZero = false ∧ unfit := by
  cases hz : b.isZero
  · exact (Numeric.fails_map.trans (h hz)).trans (and_iff_right rfl).symm
  · exact iff_of_false Numeric.not_fails_ok fun h => Bool.noConfusion h.1

theorem arithmetic_fails (op : BinaryOp) {a b : Numeric} (ha : a.isNaN = false) (hb : b.isNaN = false) :
    Numeric.Fails (op.arithmetic a b) ↔ op.Unfit a b := by
  cases op with
  | add | sub | mul => exact Numeric.fails_map.trans Numeric.combine_fails
  | div => exact guarded_fails fun _ => Numeric.div_fails
  | mod => exact guarded_fails fun hz => Numeric.rem_fails ha hb hz
  | _ => exact iff_of_false Numeric.not_fails_ok id

/-- An operator gives a value that holds no callable, unless its operands are excessive. -/
theorem apply_outcome (op : BinaryOp) (left right : Value) :
    (∃ v, op.apply left right = .ok v ∧ v.Inert ∧ ¬ op.Excessive left right) ∨
      ∃ cause, op.apply left right = .error (.arithmetic cause) ∧ op.Excessive left right := by
  have hfails := arithmetic_fails op (operand_isNaN left) (operand_isNaN right)
  unfold apply Excessive
  cases htest : op.test? with
  | some test =>
    have hfit : ¬ op.Unfit (operand left) (operand right) := by
      cases op <;> first | exact id | cases htest
    exact .inl ⟨_, rfl, .bool _, fun h => hfit h.2⟩
  | none =>
    simp only
    split
    · next hconcat => exact .inl ⟨_, rfl, .text _, fun h => h.1 hconcat⟩
    · next hplain =>
      cases harith : op.arithmetic (operand left) (operand right) with
      | error cause => exact .inr ⟨cause, rfl, hplain, hfails.1 ⟨cause, harith⟩⟩
      | ok result =>
        have hfit : ¬ op.Unfit (operand left) (operand right) := fun h => by
          obtain ⟨cause, hc⟩ := hfails.2 h
          cases harith.symm.trans hc
        cases result with
        | none => exact .inl ⟨_, rfl, .null, fun h => hfit h.2⟩
        | some n => exact .inl ⟨_, rfl, .number _, fun h => hfit h.2⟩

/-- The value of a division by zero is null. -/
theorem apply_zero {op : BinaryOp} (hop : op = .div ∨ op = .mod) (left : Value) {right : Value}
    (hz : (operand right).isZero = true) : op.apply left right = .ok .null := by
  obtain rfl | rfl := hop <;> simp [apply, test?, arithmetic, hz]

end PipelineTemplate.BinaryOp
