import DeskCalculator.Proofs.Evaluation.Order
import DeskCalculator.Proofs.Reading.Likeness

/-!
# Evaluation and direct evaluation

**Theorem (`evaluate_eq_ok_iff_evaluateDirectly`).** Evaluation function by function gives a value
exactly when evaluation from the inside out gives it. So the order of the functions decides only
which failure is reported.

Every residual has at most one value, the one that evaluation from the inside out gives it
(`value?`). Replacing the first call of a function keeps it: the call makes way for what it stands
for, and where it stands for nothing the residual has no value (`First.bind_value?_fill`). When no
call is left, the arithmetic computes it (`Computes.toOption_eq`). This is so for the functions in
any order (`Reduces.toOption_eq`).

**Theorem (`evaluate_eq_error_arisesIn`).** Every failure of evaluation arises in the expression: an
operation inside it has operands with values, and these are what the failure reports. Nothing but a
negative value where no sign may stand is reported as an invalid expression.

A failure is reported while evaluation works on a residual. Each residual stands for the expression
that it comes from: what was put in the place of a call is what direct evaluation finds there
(`Residual.StandsFor`). So the operands of the operation that fails have the values that they have
in the expression (`StandsFor.evaluateDirectly_eq`), and the argument of a call stands for a part of
it (`First.exists_part`).
-/

namespace DeskCalculator

/-! ## Values of residuals -/

theorem toOption_bind {α β : Type} (x : Except Failure α) (f : α → Except Failure β) :
    (x.bind f).toOption = x.toOption.bind fun a => (f a).toOption := by
  cases x <;> rfl

theorem toOption_eq_some_iff {α : Type} {x : Except Failure α} {a : α} :
    x.toOption = some a ↔ x = .ok a := by
  cases x <;> simp [Except.toOption]

theorem toOption_eq_none_iff {α : Type} {x : Except Failure α} :
    x.toOption = none ↔ ∃ failure, x = .error failure := by
  cases x <;> simp [Except.toOption]

namespace Residual

/-- The value of a residual from the inside out. A misplaced value is none. -/
def value? : Residual → Option Float
  | value x => some x
  | misplaced _ _ _ => none
  | binary op left right =>
    left.value?.bind fun x => right.value?.bind fun y => (op.apply x y).toOption
  | call f argument unsignedAt =>
    argument.value?.bind fun x =>
      (f.apply x).toOption.bind fun y => (withoutSign f unsignedAt y).toOption
  | negation operand => operand.value?.map (-·)

variable {r : Residual} {c : Occurrence} {result : Except Failure Float}

theorem value?_ofExpr (e : Expr) : (ofExpr e).value? = e.evaluateDirectly.toOption := by
  induction e with
  | literal x => rfl
  | binary op left right ihl ihr =>
    simp only [ofExpr, value?, ihl, ihr, Expr.evaluateDirectly, bind, toOption_bind]
  | call f argument unsignedAt ih =>
    simp only [ofExpr, value?, ih, Expr.evaluateDirectly, bind, toOption_bind]
  | negation operand ih =>
    simp only [ofExpr, value?, ih, Expr.evaluateDirectly, bind, toOption_bind]
    cases operand.evaluateDirectly <;> rfl

theorem value?_ofCallValue (f : Function) (unsignedAt : Option Nat) (y : Float) :
    (ofCallValue f unsignedAt y).value? = (withoutSign f unsignedAt y).toOption := by
  unfold ofCallValue withoutSign
  cases unsignedAt with
  | none => rfl
  | some place =>
    simp only
    split <;> rfl

/-! ## Replacing calls keeps the value -/

/-- The first call may be replaced by what it stands for. Where it stands for nothing, the residual
has no value. -/
theorem First.bind_value?_fill {target : Function} (h : First target r c) :
    (c.argument.value?.bind fun x => (target.apply x).toOption.bind fun y =>
      (c.fill (ofCallValue target c.unsignedAt y)).value?) = r.value? := by
  induction h with
  | here => simp only [id, value?_ofCallValue, value?]
  | left _ ih => simp only [value?, ← ih, Option.bind_assoc]
  | @right op left right c _ _ ih =>
    simp only [value?, ← ih]
    -- The call is replaced before the left operand is computed. For values the two may be swapped.
    cases left.value? <;> simp [Option.bind_assoc]
  | argument _ _ ih => simp only [value?, ← ih, Option.bind_assoc]
  | operand _ ih => simp only [value?, ← ih, Option.map_bind, Function.comp_def]

theorem Computes.toOption_eq (h : Computes r result) : result.toOption = r.value? := by
  induction h with
  | value => rfl
  | misplaced => rfl
  | binary _ _ ihl ihr => simp only [value?, ← ihl, ← ihr]; rfl
  | leftFails _ ih => simp only [value?, ← ih]; rfl
  | rightFails _ _ ihl ihr => simp only [value?, ← ihl, ← ihr]; rfl
  | negation _ ih => simp only [value?, ← ih]; rfl
  | operandFails _ ih => simp only [value?, ← ih]; rfl

/-- In whatever order the functions are taken, what is left has the value that was there. -/
theorem Reduces.toOption_eq {order targets : List Function} (h : Reduces order targets r result) :
    result.toOption = r.value? := by
  induction h with
  | arithmetic h => exact h.toOption_eq
  | next _ _ ih => exact ih
  | byValue hc _ hy hsign _ iharg ih =>
    rw [ih, ← hc.bind_value?_fill, ← iharg]
    simp [Except.toOption, hy, ofCallValue_of_sign_allowed hsign]
  | byMarker hc _ hy hplace hneg _ iharg ih =>
    rw [ih, ← hc.bind_value?_fill, ← iharg]
    simp [Except.toOption, hy, ofCallValue, hplace, hneg]
  | argumentFails hc _ iharg =>
    rw [← hc.bind_value?_fill, ← iharg]
    rfl
  | applicationFails hc _ hx iharg =>
    rw [← hc.bind_value?_fill, ← iharg]
    simp [Except.toOption, hx]

end Residual

/-- Evaluation function by function and evaluation from the inside out give the same values, and
fail on the same expressions. -/
theorem evaluate_eq_ok_iff_evaluateDirectly (e : Expr) :
    (∀ v, e.evaluate = .ok v ↔ e.evaluateDirectly = .ok v) ∧
      ((∃ failure, e.evaluate = .error failure) ↔
        ∃ failure, e.evaluateDirectly = .error failure) := by
  have heq : e.evaluate.toOption = e.evaluateDirectly.toOption := by
    rw [Expr.evaluate, (Residual.reduces_reduce (.ofExpr e)).toOption_eq, Residual.value?_ofExpr]
  refine ⟨fun v => ?_, ?_⟩
  · rw [← toOption_eq_some_iff, ← toOption_eq_some_iff, heq]
  · rw [← toOption_eq_none_iff, ← toOption_eq_none_iff, heq]

variable {e part : Expr} {failure : Failure}

section Operations

variable {op : Operator} {f : Function} {x y : Float}

/-! ## Operations that fail -/

/-- Only division fails, and only by zero. -/
theorem Operator.apply_eq_error (h : op.apply x y = .error failure) :
    op = .divide ∧ y == 0.0 ∧ failure = .divisionByZero := by
  cases op with
  | divide =>
    rw [apply] at h
    split at h
    next hy => exact ⟨rfl, hy, by cases h; rfl⟩
    next => cases h
  | _ => cases h

/-- The functions that are not defined everywhere, and how each of them refuses an argument. -/
theorem Function.apply_eq_error (h : f.apply x = .error failure) :
    (f = .tan ∧ failure = .undefinedTangent x) ∨
      (f = .sqrt ∧ failure = .negativeRadicand x) ∨
      (f = .log ∧ failure = .nonPositiveLogarithm x) ∨
      (f = .ln ∧ failure = .nonPositiveLogarithm x) := by
  cases f with
  | tan =>
    rw [apply, tangent] at h
    split at h <;> cases h
    exact .inl ⟨rfl, rfl⟩
  | sqrt =>
    rw [apply, squareRoot] at h
    split at h <;> cases h
    exact .inr (.inl ⟨rfl, rfl⟩)
  | log =>
    rw [apply, logarithm] at h
    split at h <;> cases h
    exact .inr (.inr (.inl ⟨rfl, rfl⟩))
  | ln =>
    rw [apply, logarithm] at h
    split at h <;> cases h
    exact .inr (.inr (.inr ⟨rfl, rfl⟩))
  | _ => cases h

/-! ## Failures of an expression -/

/-- A call of `f` inside the expression has an argument with the value `x`, and `f` refuses it. -/
def Expr.Refuses (e : Expr) (f : Function) (x : Float) (failure : Failure) : Prop :=
  ∃ argument unsignedAt, (call f argument unsignedAt).Within e ∧
    argument.evaluateDirectly = .ok x ∧ f.apply x = .error failure

/-- The call of `f` that is marked with `place` has the value `v`, which has a sign. -/
def Expr.Misplaces (e : Expr) (place : Nat) (f : Function) (v : Float) : Prop :=
  ∃ argument x, (call f argument (some place)).Within e ∧
    argument.evaluateDirectly = .ok x ∧ f.apply x = .ok v ∧ v < 0.0

/-- The failure is what some operation inside the expression `e` reports of its operands. -/
def Failure.ArisesIn (e : Expr) : Failure → Prop
  | divisionByZero => ∃ left right x y, (Expr.binary .divide left right).Within e ∧
      left.evaluateDirectly = .ok x ∧ right.evaluateDirectly = .ok y ∧ y == 0.0
  | undefinedTangent x => e.Refuses .tan x (.undefinedTangent x)
  | negativeRadicand x => e.Refuses .sqrt x (.negativeRadicand x)
  | nonPositiveLogarithm x =>
    e.Refuses .log x (.nonPositiveLogarithm x) ∨ e.Refuses .ln x (.nonPositiveLogarithm x)
  | invalidExpression place found expected =>
    ∃ f v, e.Misplaces place f v ∧ found = .callValue f v ∧ expected = .unsignedValue
  | negativeEvenRoot _ _ | tooLong _ _ | tooDeep _ => False

theorem Expr.Refuses.of_within (h : part.Refuses f x failure) (hpart : part.Within e) :
    e.Refuses f x failure := by
  obtain ⟨argument, unsignedAt, hcall, hx, hf⟩ := h
  exact ⟨argument, unsignedAt, hcall.trans hpart, hx, hf⟩

theorem Failure.ArisesIn.of_within (h : failure.ArisesIn part) (hpart : part.Within e) :
    failure.ArisesIn e := by
  cases failure with
  | divisionByZero =>
    obtain ⟨left, right, x, y, hdivision, hx, hy, hzero⟩ := h
    exact ⟨left, right, x, y, hdivision.trans hpart, hx, hy, hzero⟩
  | undefinedTangent | negativeRadicand => exact Expr.Refuses.of_within h hpart
  | nonPositiveLogarithm => exact h.imp (·.of_within hpart) (·.of_within hpart)
  | invalidExpression =>
    obtain ⟨f, v, ⟨argument, x, hcall, hx, hv, hneg⟩, hfound, hexpected⟩ := h
    exact ⟨f, v, ⟨argument, x, hcall.trans hpart, hx, hv, hneg⟩, hfound, hexpected⟩
  | negativeEvenRoot | tooLong | tooDeep => exact h

theorem Failure.arisesIn_of_apply {argument : Expr} {unsignedAt : Option Nat}
    (hcall : (Expr.call f argument unsignedAt).Within e) (hx : argument.evaluateDirectly = .ok x)
    (h : f.apply x = .error failure) : failure.ArisesIn e := by
  have hrefuses : e.Refuses f x failure := ⟨argument, unsignedAt, hcall, hx, h⟩
  obtain ⟨rfl, rfl⟩ | ⟨rfl, rfl⟩ | ⟨rfl, rfl⟩ | ⟨rfl, rfl⟩ := Function.apply_eq_error h
  · exact hrefuses
  · exact hrefuses
  · exact .inl hrefuses
  · exact .inr hrefuses

theorem Failure.arisesIn_of_operator {left right : Expr} (hx : left.evaluateDirectly = .ok x)
    (hy : right.evaluateDirectly = .ok y) (h : op.apply x y = .error failure) :
    failure.ArisesIn (.binary op left right) := by
  obtain ⟨rfl, hzero, rfl⟩ := Operator.apply_eq_error h
  exact ⟨left, right, x, y, .refl, hx, hy, hzero⟩

end Operations

namespace Residual

/-! ## What a residual stands for -/

/-- `StandsFor r e`: the residual `r` is the expression `e` with some calls replaced, each by the
value that direct evaluation finds for it, or by a note that this value has a sign. -/
inductive StandsFor : Residual → Expr → Prop
  | literal {x} : StandsFor (value x) (.literal x)
  | binary {op left right l r} : StandsFor left l → StandsFor right r →
      StandsFor (binary op left right) (.binary op l r)
  | call {f argument a unsignedAt} : StandsFor argument a →
      StandsFor (call f argument unsignedAt) (.call f a unsignedAt)
  | negation {operand o} : StandsFor operand o → StandsFor (negation operand) (.negation o)
  | callValue {f a unsignedAt x y} : a.evaluateDirectly = .ok x → f.apply x = .ok y →
      (unsignedAt = none ∨ ¬ y < 0.0) → StandsFor (value y) (.call f a unsignedAt)
  | misplaced {f a place x y} : a.evaluateDirectly = .ok x → f.apply x = .ok y → y < 0.0 →
      StandsFor (misplaced place f y) (.call f a (some place))

variable {r : Residual} {target : Function} {c : Occurrence} {result : Except Failure Float}

theorem standsFor_ofExpr (e : Expr) : StandsFor (ofExpr e) e := by
  induction e with
  | literal x => exact .literal
  | binary op left right ihl ihr => exact .binary ihl ihr
  | call f argument unsignedAt ih => exact .call ih
  | negation operand ih => exact .negation ih

theorem StandsFor.value?_eq (h : StandsFor r e) : r.value? = (ofExpr e).value? := by
  induction h with
  | literal => rfl
  | binary _ _ ihl ihr => simp only [ofExpr, value?, ihl, ihr]
  | call _ ih => simp only [ofExpr, value?, ih]
  | negation _ ih => simp only [ofExpr, value?, ih]
  | @callValue f _ _ _ _ hx hy hsign =>
    rw [← ofCallValue_of_sign_allowed (f := f) hsign, value?_ofCallValue]
    simp [ofExpr, value?, value?_ofExpr, hx, hy, Except.toOption]
  | misplaced hx hy hneg =>
    simp [ofExpr, value?, value?_ofExpr, hx, hy, hneg, withoutSign, Except.toOption]

theorem StandsFor.evaluateDirectly_eq {x : Float} (h : StandsFor r e) (hx : r.value? = some x) :
    e.evaluateDirectly = .ok x := by
  rw [h.value?_eq, value?_ofExpr] at hx
  exact toOption_eq_some_iff.1 hx

/-- The first call of a function stands for a call in the expression. Whatever else stands for that
call may be put in its place. -/
theorem First.exists_part (hc : First target r c) (h : StandsFor r e) :
    ∃ a, (Expr.call target a c.unsignedAt).Within e ∧ StandsFor c.argument a ∧
      ∀ s, StandsFor s (.call target a c.unsignedAt) → StandsFor (c.fill s) e := by
  induction hc generalizing e with
  | here =>
    cases h with
    | call ha => exact ⟨_, .refl, ha, fun s hs => hs⟩
  | left _ ih =>
    cases h with
    | binary hl hr =>
      obtain ⟨a, hpart, ha, hfill⟩ := ih hl
      exact ⟨a, .left hpart, ha, fun s hs => .binary (hfill s hs) hr⟩
  | right _ _ ih =>
    cases h with
    | binary hl hr =>
      obtain ⟨a, hpart, ha, hfill⟩ := ih hr
      exact ⟨a, .right hpart, ha, fun s hs => .binary hl (hfill s hs)⟩
  | argument _ _ ih =>
    cases h with
    | call harg =>
      obtain ⟨a, hpart, ha, hfill⟩ := ih harg
      exact ⟨a, .argument hpart, ha, fun s hs => .call (hfill s hs)⟩
  | operand _ ih =>
    cases h with
    | negation ho =>
      obtain ⟨a, hpart, ha, hfill⟩ := ih ho
      exact ⟨a, .operand hpart, ha, fun s hs => .negation (hfill s hs)⟩

/-! ## Failures of a residual -/

theorem Computes.arisesIn (hr : Computes r result) (h : StandsFor r e)
    (hresult : result = .error failure) : failure.ArisesIn e := by
  induction hr generalizing e with
  | value => cases hresult
  | misplaced =>
    cases h with
    | misplaced hx hy hneg =>
      cases hresult
      exact ⟨_, _, ⟨_, _, .refl, hx, hy, hneg⟩, rfl, rfl⟩
  | binary hleft hright =>
    cases h with
    | binary hl hr =>
      exact Failure.arisesIn_of_operator (hl.evaluateDirectly_eq hleft.toOption_eq.symm)
        (hr.evaluateDirectly_eq hright.toOption_eq.symm) hresult
  | leftFails _ ih =>
    cases h with
    | binary hl hr => exact (ih hl hresult).of_within (.left .refl)
  | rightFails _ _ _ ih =>
    cases h with
    | binary hl hr => exact (ih hr hresult).of_within (.right .refl)
  | negation => cases hresult
  | operandFails _ ih =>
    cases h with
    | negation ho => exact (ih ho hresult).of_within (.operand .refl)

/-- A failure of evaluation arises in the expression, whatever has been replaced before. -/
theorem Reduces.arisesIn {order targets : List Function} (hr : Reduces order targets r result)
    (h : StandsFor r e) (hresult : result = .error failure) : failure.ArisesIn e := by
  induction hr generalizing e with
  | arithmetic hr => exact hr.arisesIn h hresult
  | next _ _ ih => exact ih h hresult
  | byValue hc harg hy hsign _ _ ih =>
    obtain ⟨a, -, ha, hfill⟩ := hc.exists_part h
    have hx := ha.evaluateDirectly_eq harg.toOption_eq.symm
    exact ih (hfill _ (.callValue hx hy hsign)) hresult
  | @byMarker f _ _ c _ _ _ _ hc harg hy hplace hneg _ _ ih =>
    obtain ⟨a, -, ha, hfill⟩ := hc.exists_part h
    have hx := ha.evaluateDirectly_eq harg.toOption_eq.symm
    rw [hplace] at hfill
    exact ih (hfill _ (.misplaced hx hy hneg)) hresult
  | argumentFails hc _ ih =>
    obtain ⟨a, hpart, ha, -⟩ := hc.exists_part h
    exact (ih ha hresult).of_within (Expr.Within.trans (.argument .refl) hpart)
  | applicationFails hc harg hfails =>
    obtain ⟨a, hpart, ha, -⟩ := hc.exists_part h
    cases hresult
    exact Failure.arisesIn_of_apply hpart (ha.evaluateDirectly_eq harg.toOption_eq.symm) hfails

end Residual

/-! ## Failures of evaluation -/

theorem Expr.arisesIn_of_evaluate (h : e.evaluate = .error failure) : failure.ArisesIn e :=
  (Residual.reduces_reduce (.ofExpr e)).arisesIn (Residual.standsFor_ofExpr e) h

/-- Only a misplaced sign is no failure of a domain. -/
theorem Failure.ArisesIn.isDomain_eq_false_iff (h : failure.ArisesIn e) :
    failure.isDomain = false ↔ ∃ place f v, e.Misplaces place f v ∧
      failure = .invalidExpression place (.callValue f v) .unsignedValue := by
  constructor
  · intro hdomain
    cases failure with
    | invalidExpression place found expected =>
      obtain ⟨f, v, hmisplaced, rfl, rfl⟩ := h
      exact ⟨place, f, v, hmisplaced, rfl⟩
    | tooLong | tooDeep => exact h.elim
    | _ => cases hdomain
  · rintro ⟨place, f, v, -, rfl⟩
    rfl

/-- Every failure of evaluation arises in the expression.

- It is what some operation inside reports of its operands, which have values of their own.
- It is no failure of a domain exactly if a call that may have no sign has a negative value. Then
  the function and the value are named. -/
theorem evaluate_eq_error_arisesIn (h : e.evaluate = .error failure) :
    failure.ArisesIn e ∧
    (failure.isDomain = false ↔ ∃ place f v, e.Misplaces place f v ∧
      failure = .invalidExpression place (.callValue f v) .unsignedValue) ∧
    ∀ place found expected, failure = .invalidExpression place found expected →
      ∃ f v, e.Misplaces place f v ∧
        found.text = f.name ++ "(...) = " ++ Decimal.plainText v := by
  have harises := Expr.arisesIn_of_evaluate h
  refine ⟨harises, harises.isDomain_eq_false_iff, ?_⟩
  rintro place found expected rfl
  obtain ⟨f, v, hmisplaced, rfl, -⟩ := harises
  exact ⟨f, v, hmisplaced, rfl⟩

/-- In `exp(2/0) + sqrt(9-13)` the square root fails, although the division is written first. Its
argument has the value -4. -/
theorem arisesIn_square_root_of_difference :
    (Expr.binary .add (.call .exp (.binary .divide (.literal 2) (.literal 0)) none)
        (.call .sqrt (.binary .subtract (.literal 9) (.literal 13)) none)).evaluate =
      .error (.negativeRadicand (-4)) ∧
    (Failure.negativeRadicand (-4)).ArisesIn
      (.binary .add (.call .exp (.binary .divide (.literal 2) (.literal 0)) none)
        (.call .sqrt (.binary .subtract (.literal 9) (.literal 13)) none)) := by
  have hfails : (Expr.binary .add (.call .exp (.binary .divide (.literal 2) (.literal 0)) none)
      (.call .sqrt (.binary .subtract (.literal 9) (.literal 13)) none)).evaluate =
        .error (.negativeRadicand (-4)) := by
    decide +kernel
  exact ⟨hfails, (evaluate_eq_error_arisesIn hfails).1⟩

end DeskCalculator
