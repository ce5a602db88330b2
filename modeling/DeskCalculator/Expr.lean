import DeskCalculator.Token

/-!
# Expressions

An expression as a tree, its text, its value, and the lists of tokens that it may be written with.

**Signs.** A sign stands only in front of a literal or a call. The sign of a literal is part of its
value; a minus in front of a call is a `negation`.

**Calls.** A call stands where a literal could stand. Where a literal could not have a sign, neither
may the value of a call: then `unsignedAt` holds the place of the call.

**Display** (`Expr.display`). The tree as text: an operation in parentheses, a call as name and
argument, a negation with a minus in front.

**Direct evaluation** (`Expr.evaluateDirectly`). From the inside out, without a fixed order of
functions: the operands from left to right, then the operation. It gives the values that
`Expr.evaluate` gives, but may report another failure where an expression has several.

**The grammar** (`Derives`). Which lists of tokens are expressions, and which tree each of them
stands for. The grammar does not say how an expression is read. A sum is made of products, a product
of powers, and a power of operands, each from the left; an operand is a number, a group, or a call.
The flag of a phrase says whether a sign may stand in front of its first operand. It may in an
input, a group and an argument, and right after a `+`. A sign belongs to a number or a call, and a
call after a sign may have no sign of its own.
-/

namespace DeskCalculator

/-! ## Trees -/

/-- An arithmetic expression. -/
inductive Expr where
  | literal (value : Float)
  | binary (op : Operator) (left right : Expr)
  | call (f : Function) (argument : Expr) (unsignedAt : Option Nat)
  | negation (operand : Expr)
deriving Repr, DecidableEq

namespace Expr

/-! ## Display -/

/-- The text of the expression, followed by the text `rest`. -/
def displayBefore (rest : List Char) : Expr → List Char
  | literal value => Decimal.plainChars value ++ rest
  | binary op left right =>
    '(' :: left.displayBefore (' ' :: op.symbol :: ' ' :: right.displayBefore (')' :: rest))
  | call f argument _ => f.name.toList ++ '(' :: argument.displayBefore (')' :: rest)
  | negation operand => '-' :: operand.displayBefore rest

/-- The text of the expression. -/
def display (e : Expr) : List Char := e.displayBefore []

/-- What follows the text of an expression does not change it. -/
theorem displayBefore_eq (e : Expr) (rest : List Char) :
    e.displayBefore rest = e.display ++ rest := by
  induction e generalizing rest with
  | literal value => simp [display, displayBefore]
  | binary op left right ihl ihr =>
    rw [display, displayBefore, displayBefore, ihl, ihr, ihl (' ' :: _), ihr [')']]
    simp
  | call f argument _ ih =>
    rw [display, displayBefore, displayBefore, ih, ih [')']]
    simp
  | negation operand ih =>
    rw [display, displayBefore, displayBefore, ih, ih []]
    simp

theorem display_literal (value : Float) :
    (literal value).display = Decimal.plainChars value := by
  simp [display, displayBefore]

theorem display_binary (op : Operator) (left right : Expr) :
    (binary op left right).display =
      '(' :: (left.display ++ ' ' :: op.symbol :: ' ' :: (right.display ++ [')'])) := by
  rw [display, displayBefore, displayBefore_eq left, displayBefore_eq right]

theorem display_call (f : Function) (argument : Expr) (unsignedAt : Option Nat) :
    (call f argument unsignedAt).display =
      f.name.toList ++ '(' :: (argument.display ++ [')']) := by
  rw [display, displayBefore, displayBefore_eq argument]

theorem display_negation (operand : Expr) :
    (negation operand).display = '-' :: operand.display := rfl

end Expr

/-! ## Direct evaluation -/

/-- A value where no sign may stand, if it has none. -/
def withoutSign (f : Function) (unsignedAt : Option Nat) (x : Float) : Except Failure Float :=
  match unsignedAt with
  | some place =>
    if x < 0.0 then .error (.invalidExpression place (.callValue f x) .unsignedValue) else .ok x
  | none => .ok x

/-- The value of an expression, from the inside out. -/
def Expr.evaluateDirectly : Expr → Except Failure Float
  | literal x => .ok x
  | binary op left right => do
    let x ← left.evaluateDirectly
    let y ← right.evaluateDirectly
    op.apply x y
  | call f argument unsignedAt => do
    let x ← argument.evaluateDirectly
    let y ← f.apply x
    withoutSign f unsignedAt y
  | negation operand => do
    let x ← operand.evaluateDirectly
    return -x

/-! ## The grammar -/

/-- The kinds of phrases, from the loosest to the tightest. -/
inductive Phrase where
  | sum
  | product
  | power
  | operand
deriving Repr, DecidableEq

/-- The sign that a literal or call has in front of it. -/
inductive Sign where
  | plus
  | minus
deriving Repr, DecidableEq

namespace Sign

/-- The operator whose symbol is the sign. -/
def operator : Sign → Operator
  | plus => .add
  | minus => .subtract

/-- A number with the sign in front. -/
def applyToValue (x : Float) : Sign → Float
  | plus => x
  | minus => -x

/-- A call with the sign in front. -/
def applyToCall (e : Expr) : Sign → Expr
  | plus => e
  | minus => .negation e

end Sign

/-- `Derives kind signAllowed tokens e`: the tokens are a phrase of the given kind, which stands for
the expression `e`. -/
inductive Derives : Phrase → Bool → List Token → Expr → Prop where
  | ofProduct {b ts e} : Derives .product b ts e → Derives .sum b ts e
  | add {b ls op rs l r} : Derives .sum b ls l → op.kind = .operator .add →
      Derives .product true rs r → Derives .sum b (ls ++ op :: rs) (.binary .add l r)
  | subtract {b ls op rs l r} : Derives .sum b ls l → op.kind = .operator .subtract →
      Derives .product false rs r → Derives .sum b (ls ++ op :: rs) (.binary .subtract l r)
  | ofPower {b ts e} : Derives .power b ts e → Derives .product b ts e
  | multiply {b ls op rs l r} : Derives .product b ls l → op.kind = .operator .multiply →
      Derives .power false rs r → Derives .product b (ls ++ op :: rs) (.binary .multiply l r)
  | divide {b ls op rs l r} : Derives .product b ls l → op.kind = .operator .divide →
      Derives .power false rs r → Derives .product b (ls ++ op :: rs) (.binary .divide l r)
  | ofOperand {b ts e} : Derives .operand b ts e → Derives .power b ts e
  | power {b ls op rs l r} : Derives .power b ls l → op.kind = .operator .power →
      Derives .operand false rs r → Derives .power b (ls ++ op :: rs) (.binary .power l r)
  | number {b t x} : t.kind = .number x → Derives .operand b [t] (.literal x)
  | group {b opening ts closing e} : opening.kind = .opening → Derives .sum true ts e →
      closing.kind = .closing → Derives .operand b (opening :: (ts ++ [closing])) e
  | call {b name f opening ts closing e} : name.kind = .name → Function.ofName? name.text = some f →
      opening.kind = .opening → Derives .sum true ts e → closing.kind = .closing →
      Derives .operand b (name :: opening :: (ts ++ [closing]))
        (.call f e (if b then none else some name.position))
  | signedNumber {sign : Sign} {t u x} : t.kind = .operator sign.operator → u.kind = .number x →
      Derives .operand true [t, u] (.literal (sign.applyToValue x))
  | signedCall {sign : Sign} {t name f opening ts closing e} : t.kind = .operator sign.operator →
      name.kind = .name → Function.ofName? name.text = some f → opening.kind = .opening →
      Derives .sum true ts e → closing.kind = .closing →
      Derives .operand true (t :: name :: opening :: (ts ++ [closing]))
        (sign.applyToCall (.call f e (some name.position)))

end DeskCalculator
