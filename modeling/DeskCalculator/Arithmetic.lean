import DeskCalculator.Decimal

/-!
# Arithmetic

**Operators** (`Operator`). Five operators in three tiers. All of them group to the left; a higher
tier binds tighter.

**Functions** (`Function`). Seven named functions. The set is closed, and a name is looked up whole:
`sinh` is not a call of `sin`.

**Failures** (`Failure`). Everything that can go wrong with an expression, and how it is told. A
failure of a domain is an operation applied where it has no value: division by zero, the tangent at
90 degrees, a root or logarithm of a number that has none. Otherwise the text is not an expression
(`invalidExpression`), or it exceeds a limit. Positions are byte offsets in the normal form of the
text.

**Domains** (`Operator.apply`, `Function.apply`, `nthRoot`). Each operation first checks that it has
a value and then computes it in doubles. Division refuses a zero divisor of either sign, `tan` an
angle whose remainder modulo 180 degrees is close to 90, `sqrt` a negative number, and `log` and
`ln` a number that is not positive. What is not a number passes every check. Angles are given in
degrees and become radians by one multiplication.

**Closeness** (`isClose`). Two doubles are close if they differ by less than a tolerance. Values
that are not numbers are close to each other, and so are infinities of the same sign, although their
difference is undefined.
-/

namespace DeskCalculator

/-! ## Operators -/

/-- How tightly an operator binds. -/
inductive Tier where
  | additive
  | multiplicative
  | power
deriving Repr, DecidableEq

namespace Tier

/-- The place of a tier, the loosest first. -/
def rank : Tier → Nat
  | additive => 0
  | multiplicative => 1
  | power => 2

instance : LE Tier := ⟨fun s t => s.rank ≤ t.rank⟩

instance (s t : Tier) : Decidable (s ≤ t) := inferInstanceAs (Decidable (s.rank ≤ t.rank))

end Tier

/-- An arithmetic operator on two numbers. -/
inductive Operator where
  | add
  | subtract
  | multiply
  | divide
  | power
deriving Repr, DecidableEq

namespace Operator

/-- Every operator. -/
def all : List Operator := [add, subtract, multiply, divide, power]

/-- The character that is written for the operator. -/
def symbol : Operator → Char
  | add => '+'
  | subtract => '-'
  | multiply => '*'
  | divide => '/'
  | power => '^'

/-- The operator that a character is written for. -/
def ofChar? (c : Char) : Option Operator := all.find? (·.symbol == c)

theorem ofChar?_symbol (op : Operator) : ofChar? op.symbol = some op := by
  cases op <;> rfl

theorem symbol_of_ofChar? {c : Char} {op : Operator} (h : ofChar? c = some op) :
    op.symbol = c := by
  simpa using List.find?_some h

/-- How tightly the operator binds. -/
def tier : Operator → Tier
  | add | subtract => .additive
  | multiply | divide => .multiplicative
  | power => .power

end Operator

/-! ## Functions -/

/-- A function of one number. -/
inductive Function where
  | sin
  | cos
  | tan
  | log
  | ln
  | sqrt
  | exp
deriving Repr, DecidableEq

namespace Function

/-- Every function, in the order in which calls are evaluated. -/
def all : List Function := [sin, cos, tan, log, ln, sqrt, exp]

theorem mem_all (f : Function) : f ∈ all := by
  cases f <;> decide

/-- The name under which the function is called. -/
def name : Function → String
  | sin => "sin"
  | cos => "cos"
  | tan => "tan"
  | log => "log"
  | ln => "ln"
  | sqrt => "sqrt"
  | exp => "exp"

/-- The function of a given name. -/
def ofName? (name : List Char) : Option Function := all.find? (·.name.toList == name)

theorem ofName?_name (f : Function) : ofName? f.name.toList = some f := by
  cases f <;> decide

theorem name_of_ofName? {name : List Char} {f : Function} (h : ofName? name = some f) :
    f.name.toList = name := by
  simpa using List.find?_some h

end Function

/-! ## Failures -/

/-- What would have been right at a place where the text is wrong. -/
inductive Expectation where
  | operand
  | unsignedOperand
  | numberOrCall
  | functionName
  | openingAfterName
  | operator
  | closing
  | endOfInput
  | unsignedValue
deriving Repr, DecidableEq

namespace Expectation

/-- The expectation in words. -/
def text : Expectation → String
  | operand => "an operand"
  | unsignedOperand => "an operand without a sign"
  | numberOrCall => "a number or function call after sign"
  | functionName => "a function name"
  | openingAfterName => "'(' after function name"
  | operator => "an operator"
  | closing => "closing parenthesis ')'"
  | endOfInput => "end of input"
  | unsignedValue => "a value without a sign"

end Expectation

/-- What stands at a place where the text is wrong. -/
inductive Found where
  | endOfInput
  /-- A token with the given text. -/
  | token (text : List Char)
  /-- A call whose value has a sign. -/
  | callValue (f : Function) (value : Float)
deriving Repr, DecidableEq

namespace Found

/-- What was found, as it is shown. The argument of a call is not repeated. -/
def text : Found → String
  | endOfInput => "end of input"
  | token text => String.ofList text
  | callValue f value => f.name ++ "(...) = " ++ Decimal.plainText value

end Found

/-- Why an expression has no value. -/
inductive Failure where
  | divisionByZero
  | undefinedTangent (degrees : Float)
  | negativeRadicand (value : Float)
  | negativeEvenRoot (value degree : Float)
  | nonPositiveLogarithm (value : Float)
  | invalidExpression (position : Nat) (found : Found) (expected : Expectation)
  | tooLong (length limit : Nat)
  | tooDeep (limit : Nat)
deriving Repr, DecidableEq

namespace Failure

/-- The failure in one line. -/
def message : Failure → String
  | divisionByZero => "Division by zero"
  | undefinedTangent degrees =>
    "Tangent is undefined for " ++ Decimal.plainText degrees ++ " degrees"
  | negativeRadicand value =>
    "Cannot take the square root of negative number " ++ Decimal.plainText value
  | negativeEvenRoot value degree =>
    "Cannot take root of degree " ++ Decimal.plainText degree ++ " of negative number " ++
      Decimal.plainText value
  | nonPositiveLogarithm value => "Logarithm is undefined for " ++ Decimal.plainText value
  | invalidExpression position found expected =>
    "Invalid expression at position " ++ toString position ++ ": expected " ++ expected.text ++
      ", found '" ++ found.text ++ "'"
  | tooLong length limit =>
    "Expression too long: " ++ toString length ++ " characters (maximum is " ++ toString limit ++
      ")"
  | tooDeep limit =>
    "Expression too complex: nesting exceeds maximum depth of " ++ toString limit

/-- An operation was applied where it has no value. -/
def isDomain : Failure → Bool
  | divisionByZero | undefinedTangent _ | negativeRadicand _ | negativeEvenRoot _ _
  | nonPositiveLogarithm _ => true
  | invalidExpression _ _ _ | tooLong _ _ | tooDeep _ => false

end Failure

/-! ## Applying operators and functions -/

/-- How close to 90 an angle's remainder may be without losing its tangent. -/
def tangentTolerance : Float := 1e-10

/-- An angle in degrees, converted to radians. -/
def toRadians (degrees : Float) : Float := degrees * 0.017453292519943295

/-- An angle in radians, converted to degrees. -/
def toDegrees (radians : Float) : Float := radians * 57.29577951308232

/-- Combines two numbers. Only division can fail. -/
def Operator.apply (op : Operator) (left right : Float) : Except Failure Float :=
  match op with
  | .add => .ok (left + right)
  | .subtract => .ok (left - right)
  | .multiply => .ok (left * right)
  | .divide => if right == 0.0 then .error .divisionByZero else .ok (left / right)
  | .power => .ok (left.pow right)

/-- The tangent of an angle in degrees. The remainder has the sign of the angle, so 90 and 270
degrees have no tangent, while -90 and -270 degrees have one. -/
def tangent (degrees : Float) : Except Failure Float :=
  if (Binary64.remainder degrees 180.0 - 90.0).abs < tangentTolerance then
    .error (.undefinedTangent degrees)
  else
    .ok (toRadians degrees).tan

/-- A logarithm, which only positive numbers have. -/
def logarithm (log : Float → Float) (x : Float) : Except Failure Float :=
  if x ≤ 0.0 then .error (.nonPositiveLogarithm x) else .ok (log x)

/-- The square root, which negative numbers do not have. -/
def squareRoot (x : Float) : Except Failure Float :=
  if x < 0.0 then .error (.negativeRadicand x) else .ok x.sqrt

/-- Applies a function to a number. Angles are in degrees; `log` has the base ten. -/
def Function.apply (f : Function) (x : Float) : Except Failure Float :=
  match f with
  | .sin => .ok (toRadians x).sin
  | .cos => .ok (toRadians x).cos
  | .tan => tangent x
  | .log => logarithm Float.log10 x
  | .ln => logarithm Float.log x
  | .sqrt => squareRoot x
  | .exp => .ok x.exp

/-- The root of `x` of a given degree, as the power of `x` with the reciprocal of the degree. A
negative number has no root of an even degree. Its other roots are left to the power: of -8 the root
of degree 1 is -8, and that of degree 3 is not a number. -/
def nthRoot (x degree : Float) : Except Failure Float :=
  if x < 0.0 ∧ Binary64.remainder degree 2.0 == 0.0 then
    .error (.negativeEvenRoot x degree)
  else
    .ok (x.pow (1.0 / degree))

/-! ## Closeness -/

/-- The tolerance where none is given. -/
def defaultTolerance : Float := 1e-10

/-- The values differ by less than the tolerance. -/
def isClose (left right tolerance : Float) : Bool :=
  if left.isNaN ∧ right.isNaN then true
  else if left.isInf ∧ right.isInf ∧ left == right then true
  else (left - right).abs < tolerance

/-- What is reported of values that are not close. -/
def differenceText (left right tolerance : Float) : String :=
  "assertion failed: `(left ≈ right)` (left: `" ++ Decimal.plainText left ++ "`, right: `" ++
    Decimal.plainText right ++ "`, epsilon: `" ++ Decimal.plainText tolerance ++ "`)"

end DeskCalculator
