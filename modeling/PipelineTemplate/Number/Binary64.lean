/-!
# Binary64 numbers

A double is kept as exact data: a sign, a mantissa and a power of two on the double grid. Each
operation computes the exact rational result and rounds it once, to the nearest double and, between
two, to the one with the even mantissa.
-/

namespace PipelineTemplate.Number

def powerOfTwo (n : Nat) : Nat := Nat.pow 2 n

def powerOfTen (n : Nat) : Nat := Nat.pow 10 n

/-- The pairs that stand for finite doubles: 53 significant bits, fewer only at the least exponent. -/
def OnGrid (mantissa : Nat) (exponent : Int) : Prop :=
  mantissa < powerOfTwo 53 ∧ -1074 ≤ exponent ∧ exponent ≤ 971 ∧
    (powerOfTwo 52 ≤ mantissa ∨ exponent = -1074)

instance (mantissa : Nat) (exponent : Int) : Decidable (OnGrid mantissa exponent) := by
  unfold OnGrid; infer_instance

inductive Binary64 where
  | finite (negative : Bool) (mantissa : Nat) (exponent : Int)
      (onGrid : OnGrid mantissa exponent)
  | infinite (negative : Bool)
  | nan
  deriving DecidableEq

/-- The fraction `num / den` scaled by `2 ^ (-exponent)`. -/
def scaleDown (num den : Nat) (exponent : Int) : Nat × Nat :=
  (num * powerOfTwo (-exponent).toNat, den * powerOfTwo exponent.toNat)

/-- The whole number nearest to `num / den`; a half goes to the even neighbour. -/
def nearestEven (num den : Nat) : Nat :=
  let quotient := num / den
  let remainder := num % den
  if 2 * remainder < den then quotient
  else if den < 2 * remainder then quotient + 1
  else quotient + quotient % 2

/-- The power of two in whose multiples doubles near `num / den` are written. -/
def gridExponent (num den : Nat) : Int :=
  let octave : Int := num.log2 - den.log2
  let (n, d) := scaleDown num den octave
  max (-1074) (if d ≤ n then octave - 52 else octave - 53)

namespace Binary64

def zero (negative : Bool) : Binary64 :=
  .finite negative 0 (-1074) (by decide)

instance : Inhabited Binary64 := ⟨zero false⟩

/-- The double nearest to `num / den` with the given sign; beyond the largest one it is infinite. -/
def round (negative : Bool) (num den : Nat) : Binary64 :=
  if num = 0 then zero negative
  else
    let exponent := gridExponent num den
    let (n, d) := scaleDown num den exponent
    let mantissa := nearestEven n d
    if h : OnGrid mantissa exponent then .finite negative mantissa exponent h
    else if h : OnGrid (mantissa / 2) (exponent + 1) then
      .finite negative (mantissa / 2) (exponent + 1) h
    else .infinite negative

def ofRat (r : Rat) : Binary64 :=
  round (decide (r.num < 0)) r.num.natAbs r.den

/-- The exact value of a finite double. -/
def toRat? : Binary64 → Option Rat
  | .finite negative mantissa exponent _ =>
    let magnitude : Rat := mkRat (mantissa * powerOfTwo exponent.toNat : Nat)
      (powerOfTwo (-exponent).toNat)
    some (if negative then -magnitude else magnitude)
  | _ => none

def isNegative : Binary64 → Bool
  | .finite negative .. => negative
  | .infinite negative => negative
  | .nan => false

def isNaN (x : Binary64) : Bool := decide (x = .nan)

def isFinite (x : Binary64) : Bool := x.toRat?.isSome

/-- Zero of either sign. -/
def isZero (x : Binary64) : Bool := decide (x.toRat? = some 0)

/-- The whole number that a double stands for, if it stands for one. -/
def toInt? (x : Binary64) : Option Int :=
  x.toRat?.bind fun r => if r.den = 1 then some r.num else none

/-- The double nearest to an integer; nothing when that lies beyond the largest double. -/
def ofInt? (n : Int) : Option Binary64 :=
  let x := ofRat n
  if x.isFinite then some x else none

def neg : Binary64 → Binary64
  | .finite negative mantissa exponent h => .finite (!negative) mantissa exponent h
  | .infinite negative => .infinite (!negative)
  | .nan => .nan

/-- Rounds an exact result; an exact zero takes the sign given for it. -/
def ofExact (r : Rat) (negativeZero : Bool) : Binary64 :=
  if r = 0 then zero negativeZero else ofRat r

def add (x y : Binary64) : Binary64 :=
  match x.toRat?, y.toRat? with
  | some r, some s => ofExact (r + s) (x.isNegative && y.isNegative)
  | _, _ =>
    match x, y with
    | .nan, _ | _, .nan => .nan
    | .infinite a, .infinite b => if a = b then .infinite a else .nan
    | .infinite a, _ => .infinite a
    | _, y => y

def sub (x y : Binary64) : Binary64 := x.add y.neg

def mul (x y : Binary64) : Binary64 :=
  let negative := x.isNegative != y.isNegative
  match x.toRat?, y.toRat? with
  | some r, some s => ofExact (r * s) negative
  | _, _ =>
    if x.isNaN || y.isNaN || x.isZero || y.isZero then .nan else .infinite negative

def div (x y : Binary64) : Binary64 :=
  let negative := x.isNegative != y.isNegative
  match x.toRat?, y.toRat? with
  | some r, some s =>
    if s = 0 then (if r = 0 then .nan else .infinite negative) else ofExact (r / s) negative
  | some _, none => if y.isNaN then .nan else zero negative
  | none, some _ => if x.isNaN then .nan else .infinite negative
  | none, none => .nan

/-- The remainder of the division rounded toward zero; it has the sign of the dividend. Nothing is
the remainder of an infinite dividend or of division by zero. -/
def rem? (x y : Binary64) : Option Binary64 :=
  if x.isNaN || y.isNaN then some .nan
  else
    match x.toRat?, y.toRat? with
    | some r, some s =>
      if s = 0 then none
      else
        let q := r / s
        some (ofExact (r - s * (Int.tdiv q.num q.den : Int)) x.isNegative)
    | some _, none => some x
    | none, _ => none

end Binary64

/-- A number of the document language: an integer of any size or a double. -/
inductive Numeric where
  | int (n : Int)
  | float (x : Binary64)
  deriving DecidableEq

namespace Numeric

instance : Inhabited Numeric := ⟨.int 0⟩

/-- A double that stands for a whole number becomes that integer. -/
def normalize : Numeric → Numeric
  | .int n => .int n
  | .float x =>
    match x.toInt? with
    | some n => .int n
    | none => .float x

def isNaN : Numeric → Bool
  | .int _ => false
  | .float x => x.isNaN

def isZero : Numeric → Bool
  | .int n => n == 0
  | .float x => x.isZero

/-- The exact value of a number that is neither infinite nor NaN. -/
def toRat? : Numeric → Option Rat
  | .int n => some n
  | .float x => x.toRat?

/-- Equality of exact values; NaN equals nothing. -/
def eq (a b : Numeric) : Bool :=
  match a.toRat?, b.toRat? with
  | some r, some s => r == s
  | none, none => !a.isNaN && a == b
  | _, _ => false

/-- The order of exact values, with the infinities at its ends; nothing is below or above NaN. -/
def lt (a b : Numeric) : Bool :=
  match a.toRat?, b.toRat? with
  | some r, some s => decide (r < s)
  | some _, none => b == .float (.infinite false)
  | none, some _ => a == .float (.infinite true)
  | none, none => a == .float (.infinite true) && b == .float (.infinite false)

def toBinary64? : Numeric → Option Binary64
  | .int n => Binary64.ofInt? n
  | .float x => some x

/-- Why an arithmetic operation has no value. -/
inductive Undefined where
  /-- An integer operand or a quotient of integers lies beyond the largest double. -/
  | tooLarge
  /-- The remainder of an infinite number. -/
  | noRemainder
  deriving DecidableEq

/-- Integers are combined exactly; with a double among the operands both become doubles. -/
def combine (onInt : Int → Int → Int) (onFloat : Binary64 → Binary64 → Binary64)
    (a b : Numeric) : Except Undefined Numeric :=
  match a, b with
  | .int m, .int n => .ok (.int (onInt m n))
  | a, b =>
    match a.toBinary64?, b.toBinary64? with
    | some x, some y => .ok (.float (onFloat x y))
    | _, _ => .error .tooLarge

def add : Numeric → Numeric → Except Undefined Numeric := combine (· + ·) Binary64.add
def sub : Numeric → Numeric → Except Undefined Numeric := combine (· - ·) Binary64.sub
def mul : Numeric → Numeric → Except Undefined Numeric := combine (· * ·) Binary64.mul

/-- The quotient as a double; of two integers it is the exact quotient rounded once. -/
def div (a b : Numeric) : Except Undefined Numeric :=
  match a, b with
  | .int m, .int n =>
    let q := Binary64.ofExact (m / n : Rat) (decide (n < 0))
    if q.isFinite then .ok (.float q) else .error .tooLarge
  | a, b =>
    match a.toBinary64?, b.toBinary64? with
    | some x, some y => .ok (.float (x.div y))
    | _, _ => .error .tooLarge

/-- The remainder is always taken of doubles. -/
def rem (a b : Numeric) : Except Undefined Numeric :=
  match a.toBinary64?, b.toBinary64? with
  | some x, some y =>
    match x.rem? y with
    | some r => .ok (.float r)
    | none => .error .noRemainder
  | _, _ => .error .tooLarge

def neg : Numeric → Numeric
  | .int n => .int (-n)
  | .float x => .float x.neg

end Numeric

end PipelineTemplate.Number
