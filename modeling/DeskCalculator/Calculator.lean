import DeskCalculator.Expr

/-!
# The calculator

From the text of an expression to its value. The text is normalized, its length is checked, its
tokens are read as an expression (`parse`), and the expression is evaluated (`evaluate`). The first
failure ends the work.

**Reading** (`Reading`). An expression is read from its tokens one by one, from left to right. What
has been read so far is a `Reading`; each token leads to the next one or is refused.

- A left operand waits with its operator until its right operand is complete (`Waiting`). The
  operators that wait on one level bind tighter and tighter. When the next operator binds no tighter
  than those, they take their right operand first (`Waiting.settle`). So operators of one tier group
  to the left.
- An opening parenthesis puts everything that waits aside as a `Level`; the closing one completes it
  and goes back. A level too many is refused at its opening parenthesis.
- A sign may start an input, a group, an argument and the right operand of a `+`.
- The first token that cannot follow is refused with what would have been right in its place.

**Evaluation** (`Residual`). Calls are evaluated before the arithmetic around them. While that
happens the expression is a `Residual`: some of its calls have been replaced by their values.

- One function after the other, in the order of `Function.all`, every call of it is replaced, from
  left to right (`Residual.substitute`). The argument of such a call is evaluated in the same way at
  that moment. The arithmetic that is left is done last, the left operand before the right one
  (`Residual.fold`). So a failing call wins over a failing division outside all calls. A
  division in the argument of a call fails when the turn of that call comes.
- A negative value where no sign may stand is noted (`misplaced`) and refused only when the
  arithmetic gets there.
- The argument of a call has a smaller `callDepth` than the call, so evaluation nested as deep as
  the calls are (`Residual.reduceWithin`) reaches every argument.
-/

namespace DeskCalculator

/-! ## Limits -/

/-- The limits that every expression is held to. -/
structure Limits where
  /-- The most characters that the normal form may have. -/
  maxLength : Nat := 10000
  /-- The deepest nesting of groups and calls. -/
  maxDepth : Nat := 512
deriving Repr, DecidableEq

/-! ## What waits -/

/-- A left operand and its operator, waiting for the right operand. -/
structure Waiting where
  left : Expr
  op : Operator
deriving Repr, DecidableEq

namespace Waiting

/-- Gives a complete right operand to the operator. -/
def complete (right : Expr) (w : Waiting) : Expr := .binary w.op w.left right

/-- Completes the operators, the last one first, as long as they bind at least as tight as `tier`.
Gives the operators left waiting and the operand built. -/
def settle (tier : Tier) : List Waiting → Expr → List Waiting × Expr
  | [], operand => ([], operand)
  | w :: rest, operand =>
    if tier ≤ w.op.tier then settle tier rest (w.complete operand) else (w :: rest, operand)

/-- Completes all operators, the last one first. -/
def settleAll (waiting : List Waiting) (operand : Expr) : Expr := waiting.foldl complete operand

end Waiting

/-- What an opening parenthesis belongs to. -/
inductive Opener where
  | group
  | call (f : Function) (unsignedAt : Option Nat) (negated : Bool)
deriving Repr, DecidableEq

/-- The operand that a parenthesis with the given content makes up. -/
def Opener.close (content : Expr) : Opener → Expr
  | group => content
  | call f unsignedAt false => .call f content unsignedAt
  | call f unsignedAt true => .negation (.call f content unsignedAt)

/-- An open parenthesis, and what waits in front of it. -/
structure Level where
  opener : Opener
  waiting : List Waiting
deriving Repr, DecidableEq

/-- What may come next. -/
inductive Next where
  /-- An operand, with a sign only where that is allowed. -/
  | operand (signAllowed : Bool)
  /-- A number or a call, after a sign. -/
  | signed (negative : Bool)
  /-- The argument of a function whose name has been read. -/
  | argument (f : Function) (unsignedAt : Option Nat) (negated : Bool)
  /-- An operator after an operand, a closing parenthesis or the end. -/
  | operator (operand : Expr)
deriving Repr, DecidableEq

/-- An expression read so far: the open levels, the innermost first, what waits on the current one,
and what may come next. -/
structure Reading where
  levels : List Level
  waiting : List Waiting
  next : Next
deriving Repr, DecidableEq

namespace Reading

/-- Nothing has been read. -/
def start : Reading := ⟨[], [], .operand true⟩

/-! ## One token -/

/-- Refuses a token. -/
def refuse {α : Type} (t : Token) (expected : Expectation) : Except Failure α :=
  .error (.invalidExpression t.position (.token t.text) expected)

/-- An operand is complete. -/
def withOperand (r : Reading) (operand : Expr) : Reading := { r with next := .operator operand }

/-- Opens a level, unless that is one too many. -/
def openLevel (maxDepth : Nat) (r : Reading) (opener : Opener) : Except Failure Reading :=
  if maxDepth ≤ r.levels.length then
    .error (.tooDeep maxDepth)
  else
    .ok ⟨⟨opener, r.waiting⟩ :: r.levels, [], .operand true⟩

/-- Takes a name as that of a function to be called. -/
def takeName (r : Reading) (t : Token) (signAllowed negated : Bool) : Except Failure Reading :=
  match Function.ofName? t.text with
  | some f =>
    .ok { r with next := .argument f (if signAllowed then none else some t.position) negated }
  | none => refuse t .functionName

/-- A token where an operand may start. -/
def takeOperand (maxDepth : Nat) (r : Reading) (signAllowed : Bool) (t : Token) :
    Except Failure Reading :=
  match t.kind with
  | .number value => .ok (r.withOperand (.literal value))
  | .name => r.takeName t signAllowed false
  | .opening => r.openLevel maxDepth .group
  | .operator .add =>
    if signAllowed then .ok { r with next := .signed false } else refuse t .unsignedOperand
  | .operator .subtract =>
    if signAllowed then .ok { r with next := .signed true } else refuse t .unsignedOperand
  | .operator _ | .closing | .stray => refuse t .operand

/-- A token after a sign. -/
def takeSigned (r : Reading) (negative : Bool) (t : Token) : Except Failure Reading :=
  match t.kind with
  | .number value => .ok (r.withOperand (.literal (if negative then -value else value)))
  | .name => r.takeName t false negative
  | .operator _ | .opening | .closing | .stray => refuse t .numberOrCall

/-- A token after the name of a function. -/
def takeArgument (maxDepth : Nat) (r : Reading) (f : Function) (unsignedAt : Option Nat)
    (negated : Bool) (t : Token) : Except Failure Reading :=
  match t.kind with
  | .opening => r.openLevel maxDepth (.call f unsignedAt negated)
  | .number _ | .name | .operator _ | .closing | .stray => refuse t .openingAfterName

/-- A token after an operand. -/
def takeOperator (r : Reading) (operand : Expr) (t : Token) : Except Failure Reading :=
  match t.kind with
  | .operator op =>
    let (waiting, left) := Waiting.settle op.tier r.waiting operand
    .ok { r with waiting := ⟨left, op⟩ :: waiting, next := .operand (op = .add) }
  | .closing =>
    match r.levels with
    | level :: levels =>
      .ok ⟨levels, level.waiting,
        .operator (level.opener.close (Waiting.settleAll r.waiting operand))⟩
    | [] => refuse t .endOfInput
  | .number _ | .name | .opening | .stray => refuse t .operator

/-- Reads one more token. -/
def step (maxDepth : Nat) (r : Reading) (t : Token) : Except Failure Reading :=
  match r.next with
  | .operand signAllowed => r.takeOperand maxDepth signAllowed t
  | .signed negative => r.takeSigned negative t
  | .argument f unsignedAt negated => r.takeArgument maxDepth f unsignedAt negated t
  | .operator operand => r.takeOperator operand t

/-! ## The end -/

/-- Refuses the end of the input, which is at a given place. -/
def refuseEnd {α : Type} (place : Nat) (expected : Expectation) : Except Failure α :=
  .error (.invalidExpression place .endOfInput expected)

/-- The expression, if it is complete at the end of the input. -/
def finish (r : Reading) (place : Nat) : Except Failure Expr :=
  match r.next, r.levels with
  | .operand _, _ => refuseEnd place .operand
  | .signed _, _ => refuseEnd place .numberOrCall
  | .argument _ _ _, _ => refuseEnd place .openingAfterName
  | .operator operand, [] => .ok (Waiting.settleAll r.waiting operand)
  | .operator _, _ :: _ => refuseEnd place .closing

/-- Reads tokens, one after the other. -/
def run (maxDepth : Nat) (r : Reading) (tokens : List Token) : Except Failure Reading :=
  tokens.foldlM (step maxDepth) r

@[simp] theorem run_nil (maxDepth : Nat) (r : Reading) : r.run maxDepth [] = .ok r := rfl

theorem run_cons (maxDepth : Nat) (r : Reading) (t : Token) (rest : List Token) :
    r.run maxDepth (t :: rest) = (r.step maxDepth t).bind fun next => next.run maxDepth rest := rfl

/-- Two stretches of tokens are read one after the other. -/
theorem run_append (maxDepth : Nat) (r : Reading) (s t : List Token) :
    r.run maxDepth (s ++ t) = (r.run maxDepth s).bind fun next => next.run maxDepth t := by
  simp only [run, List.foldlM_append]
  rfl

end Reading

/-- The expression that a list of tokens makes up; the input ends at the place `size`. -/
def Expr.ofTokens (maxDepth size : Nat) (tokens : List Token) : Except Failure Expr :=
  (Reading.start.run maxDepth tokens).bind fun r => r.finish size

/-! ## Evaluating an expression -/

/-- An expression in which some of the calls have been replaced by their values. -/
inductive Residual where
  | value (x : Float)
  /-- The negative value of a call at a place where no sign may stand. -/
  | misplaced (place : Nat) (f : Function) (x : Float)
  | binary (op : Operator) (left right : Residual)
  | call (f : Function) (argument : Residual) (unsignedAt : Option Nat)
  | negation (operand : Residual)
deriving Repr, DecidableEq

namespace Residual

/-- The expression with all its calls. -/
def ofExpr : Expr → Residual
  | .literal x => value x
  | .binary op left right => binary op (ofExpr left) (ofExpr right)
  | .call f argument unsignedAt => call f (ofExpr argument) unsignedAt
  | .negation operand => negation (ofExpr operand)

/-- What takes the place of a call with the value `x`. -/
def ofCallValue (f : Function) (unsignedAt : Option Nat) (x : Float) : Residual :=
  match unsignedAt with
  | some place => if x < 0.0 then misplaced place f x else value x
  | none => value x

/-- Replaces the outermost calls of `target` by their values, from left to right. Arguments are
evaluated by `reduce`. -/
def substitute (reduce : Residual → Except Failure Float) (target : Function) :
    Residual → Except Failure Residual
  | value x => .ok (value x)
  | misplaced place f x => .ok (misplaced place f x)
  | binary op left right => do
    let newLeft ← substitute reduce target left
    let newRight ← substitute reduce target right
    return binary op newLeft newRight
  | call f argument unsignedAt =>
    if f = target then do
      let x ← reduce argument
      let y ← f.apply x
      return ofCallValue f unsignedAt y
    else do
      let newArgument ← substitute reduce target argument
      return call f newArgument unsignedAt
  | negation operand => do
    let newOperand ← substitute reduce target operand
    return negation newOperand

/-- Replaces calls function by function, in the given order. -/
def substituteAll (reduce : Residual → Except Failure Float) (targets : List Function)
    (r : Residual) : Except Failure Residual :=
  targets.foldlM (fun r f => r.substitute reduce f) r

/-- Does the arithmetic. A call that is still there is applied to its argument. -/
def fold : Residual → Except Failure Float
  | value x => .ok x
  | misplaced place f x => .error (.invalidExpression place (.callValue f x) .unsignedValue)
  | binary op left right => do
    let x ← fold left
    let y ← fold right
    op.apply x y
  | call f argument _ => do
    let x ← fold argument
    f.apply x
  | negation operand => do
    let x ← fold operand
    return -x

/-- How deep calls are nested in each other. -/
def callDepth : Residual → Nat
  | value _ | misplaced _ _ _ => 0
  | binary _ left right => max left.callDepth right.callDepth
  | call _ argument _ => argument.callDepth + 1
  | negation operand => operand.callDepth

/-- Evaluates the calls that are nested at most `depth` deep, then the arithmetic. -/
def reduceWithin : Nat → Residual → Except Failure Float
  | 0, r => r.fold
  | depth + 1, r => do
    let reduced ← r.substituteAll (reduceWithin depth) Function.all
    reduced.fold

/-- Evaluates all calls, then the arithmetic. -/
def reduce (r : Residual) : Except Failure Float := r.reduceWithin r.callDepth

end Residual

/-- The value of an expression. -/
def Expr.evaluate (e : Expr) : Except Failure Float := (Residual.ofExpr e).reduce

/-! ## From text to value -/

/-- The normal form of a text: small letters, no blanks. -/
def normalize (s : String) : String := String.ofList (Text.normalize s.toList)

/-- Reads a text in normal form as an expression. -/
def parseNormal (limits : Limits) (s : List Char) : Except Failure Expr :=
  if limits.maxLength < s.length then
    .error (.tooLong s.length limits.maxLength)
  else
    Expr.ofTokens limits.maxDepth (Text.byteLength s) (tokenize s)

/-- Reads a text as an expression. -/
def parse (limits : Limits) (s : String) : Except Failure Expr :=
  parseNormal limits (Text.normalize s.toList)

/-- The value of the expression that a text stands for. -/
def evaluate (limits : Limits) (s : String) : Except Failure Float :=
  (parse limits s).bind Expr.evaluate

end DeskCalculator
