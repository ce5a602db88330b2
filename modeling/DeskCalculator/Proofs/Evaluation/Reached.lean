import DeskCalculator.Proofs.Evaluation.Order
import Mathlib.Control.Monad.Basic
import Mathlib.Logic.Relation

/-!
# The arithmetic meets no call

Evaluation is three procedures that call each other: a residual is reduced, a pass goes through it
for every function, and the arithmetic folds what is left. `Starts` says which of them each one
starts, and `Reached` which are started at all on the way to the value of an expression.

**Theorem (`calls_of_reached`).** In every residual that is reduced the passes done so far have left
no call of their functions, at any depth, and later passes bring none back. So the arithmetic is
never started on a residual with a call in it, and what it would do there has no influence on any
value.

Each procedure hands on to those it starts that the earlier functions have no calls left
(`Starts.clear`); the rest is induction on the way there (`Reached.clear`). Nothing else is ever
reduced than what is reached (`reduce_eq_of_reached`).
-/

namespace DeskCalculator

/-- The functions whose calls are replaced before those of `f`. -/
def Function.earlier (f : Function) : List Function := Function.all.takeWhile (· ≠ f)

theorem Function.earlier_eq {f : Function} {before after : List Function}
    (h : Function.all = before ++ f :: after) : f.earlier = before := by
  have hnodup : (before ++ f :: after).Nodup := h ▸ (by decide)
  have hne : ∀ g ∈ before, (decide (g ≠ f)) = true := by
    rintro g hg
    refine decide_eq_true ?_
    rintro rfl
    exact (List.nodup_append.1 hnodup).2.2 g hg g List.mem_cons_self rfl
  rw [earlier, h, List.takeWhile_append_of_pos hne]
  simp

namespace Residual

/-! ## What evaluation starts -/

/-- Work on a residual: all of its evaluation, the pass for one function, or the arithmetic. -/
inductive Activity where
  | reduce (r : Residual)
  | pass (target : Function) (r : Residual)
  | fold (r : Residual)

/-- `Starts a b`: in the course of `a`, unless it fails before, `b` is started. -/
inductive Starts : Activity → Activity → Prop where
  | pass {f r s} : r.substituteAll Residual.reduce f.earlier = .ok s →
      Starts (.reduce r) (.pass f s)
  | arithmetic {r s} : r.substituteAll Residual.reduce Function.all = .ok s →
      Starts (.reduce r) (.fold s)
  | argument {f argument unsignedAt} :
      Starts (.pass f (call f argument unsignedAt)) (.reduce argument)
  | passArgument {f g argument unsignedAt} : g ≠ f →
      Starts (.pass f (call g argument unsignedAt)) (.pass f argument)
  | passLeft {f op left right} : Starts (.pass f (binary op left right)) (.pass f left)
  | passRight {f op left right l} : left.substitute Residual.reduce f = .ok l →
      Starts (.pass f (binary op left right)) (.pass f right)
  | passOperand {f operand} : Starts (.pass f (negation operand)) (.pass f operand)
  | foldLeft {op left right} : Starts (.fold (binary op left right)) (.fold left)
  | foldRight {op left right x} : left.fold = .ok x →
      Starts (.fold (binary op left right)) (.fold right)
  | foldArgument {f argument unsignedAt} :
      Starts (.fold (call f argument unsignedAt)) (.fold argument)
  | foldOperand {operand} : Starts (.fold (negation operand)) (.fold operand)

/-- What is started, at any remove, in order to evaluate `t`. -/
def Reached (t : Expr) : Activity → Prop :=
  Relation.ReflTransGen Starts (.reduce (ofExpr t))

/-- The arithmetic, with `onCall` in the place of what it does with a call. -/
def foldWith (onCall : Function → Residual → Option Nat → Except Failure Float) :
    Residual → Except Failure Float
  | value x => .ok x
  | misplaced place f x => .error (.invalidExpression place (.callValue f x) .unsignedValue)
  | binary op left right => do
    let x ← foldWith onCall left
    let y ← foldWith onCall right
    op.apply x y
  | call f argument unsignedAt => onCall f argument unsignedAt
  | negation operand => do
    let x ← foldWith onCall operand
    return -x

/-- Evaluation of the calls that are nested at most `depth` deep, with that arithmetic. -/
def reduceWithinWith (onCall : Function → Residual → Option Nat → Except Failure Float) :
    Nat → Residual → Except Failure Float
  | 0, r => r.foldWith onCall
  | depth + 1, r => do
    let reduced ← r.substituteAll (reduceWithinWith onCall depth) Function.all
    reduced.foldWith onCall

end Residual

/-- The value of an expression, with `onCall` in the place of what the arithmetic does with a
call. -/
def Expr.evaluateWith
    (onCall : Function → Residual → Option Nat → Except Failure Float) (e : Expr) :
    Except Failure Float :=
  (Residual.ofExpr e).reduceWithinWith onCall (Residual.ofExpr e).callDepth

namespace Residual

variable {a b : Activity} {f : Function} {r s : Residual} {t : Expr}
  {reduce' : Residual → Except Failure Float}
  {onCall : Function → Residual → Option Nat → Except Failure Float}

/-! ## No call is left -/

/-- Nothing is left of what should have been replaced before. -/
def Activity.Clear : Activity → Prop
  | reduce _ => True
  | pass f r => ∀ g ∈ f.earlier, g ∉ r.calls
  | fold r => r.calls = []

theorem Starts.clear (h : Starts a b) (ha : a.Clear) : b.Clear := by
  cases h with
  | pass hs => exact fun g hg hcall => (mem_calls_of_substituteAll hs hcall).2 hg
  | arithmetic hs => exact calls_of_substituteAll_all hs
  | argument => exact trivial
  | passArgument => exact fun g hg hcall => ha g hg (List.mem_cons_of_mem _ hcall)
  | passLeft => exact fun g hg hcall => ha g hg (List.mem_append_left _ hcall)
  | passRight => exact fun g hg hcall => ha g hg (List.mem_append_right _ hcall)
  | passOperand => exact ha
  | foldLeft => exact (List.append_eq_nil_iff.1 ha).1
  | foldRight => exact (List.append_eq_nil_iff.1 ha).2
  | foldArgument => cases ha
  | foldOperand => exact ha

theorem Reached.clear (h : Reached t a) : a.Clear := by
  induction h with
  | refl => exact trivial
  | tail _ hstep ih => exact hstep.clear ih

/-! ## Nothing else is reduced -/

theorem substituteAll_append {reduce : Residual → Except Failure Float}
    (before after : List Function) (r : Residual) :
    r.substituteAll reduce (before ++ after) =
      (r.substituteAll reduce before).bind fun s => s.substituteAll reduce after :=
  List.foldlM_append

/-- A pass depends only on how the arguments are reduced that it gets to. -/
theorem substitute_eq_of_starts
    (h : ∀ a, Relation.ReflTransGen Starts (.pass f r) (.reduce a) → reduce' a = a.reduce) :
    r.substitute reduce' f = r.substitute Residual.reduce f := by
  induction r with
  | value x => rfl
  | misplaced place g x => rfl
  | binary op left right ihl ihr =>
    rw [substitute_binary, substitute_binary, ihl fun a ha => h a (.head .passLeft ha)]
    cases hleft : left.substitute Residual.reduce f with
    | error failure => rfl
    | ok l => rw [ihr fun a ha => h a (.head (.passRight hleft) ha)]
  | call g argument unsignedAt ih =>
    by_cases hg : g = f
    · subst hg
      rw [substitute_call_self, substitute_call_self, h argument (.single .argument)]
    · rw [substitute_call_of_ne hg, substitute_call_of_ne hg,
        ih fun a ha => h a (.head (.passArgument hg) ha)]
  | negation operand ih =>
    rw [substitute_negation, substitute_negation, ih fun a ha => h a (.head .passOperand ha)]

/-- So do the passes that are still to come. -/
theorem substituteAll_eq_of_starts {before after : List Function}
    (hsplit : Function.all = before ++ after)
    (hs : r.substituteAll Residual.reduce before = .ok s)
    (h : ∀ a, Relation.ReflTransGen Starts (.reduce r) (.reduce a) → reduce' a = a.reduce) :
    s.substituteAll reduce' after = s.substituteAll Residual.reduce after := by
  -- With every pass a function moves from `after` to `before`, so `r` starts the next pass as well.
  induction after generalizing before s with
  | nil => rfl
  | cons f after ih =>
    have hpass : Starts (.reduce r) (.pass f s) := .pass (by rwa [Function.earlier_eq hsplit])
    rw [substituteAll_cons, substituteAll_cons,
      substitute_eq_of_starts fun a ha => h a (.head hpass ha)]
    cases hf : s.substitute Residual.reduce f with
    | error failure => rfl
    | ok u =>
      have hsplit' : Function.all = before ++ [f] ++ after := by
        rw [hsplit, List.append_assoc]
        rfl
      have hu : r.substituteAll Residual.reduce (before ++ [f]) = .ok u := by
        rw [substituteAll_append, hs]
        change (s.substitute Residual.reduce f).bind .ok = .ok u
        rw [hf]
        rfl
      exact ih hsplit' hu

theorem reduce_eq_of_reached (hr : Reached t (.reduce r))
    (h : ∀ a, Reached t (.reduce a) → reduce' a = a.reduce) :
    r.reduce = (r.substituteAll reduce' Function.all).bind fold := by
  have hpasses : r.substituteAll reduce' Function.all =
      r.substituteAll Residual.reduce Function.all :=
    substituteAll_eq_of_starts (List.nil_append _).symm (substituteAll_nil r)
      fun a ha => h a (hr.trans ha)
  rw [reduce_eq, hpasses]

/-! ## Calls do not matter to the arithmetic -/

theorem foldWith_of_calls_eq_nil (h : r.calls = []) : r.foldWith onCall = r.fold := by
  induction r with
  | value x => rfl
  | misplaced place f x => rfl
  | binary op left right ihl ihr =>
    obtain ⟨hl, hr⟩ := List.append_eq_nil_iff.1 h
    rw [foldWith, fold, ihl hl, ihr hr]
  | call f argument unsignedAt ih => cases h
  | negation operand ih => rw [foldWith, fold, ih h]

theorem calls_of_callDepth_eq_zero (h : r.callDepth = 0) : r.calls = [] := by
  have hpasses : r.substituteAll Residual.reduce Function.all = .ok r :=
    substituteAll_of_callDepth_eq_zero h
  exact calls_of_substituteAll_all hpasses

theorem reduceWithinWith_eq {depth : Nat} (h : r.callDepth ≤ depth) :
    r.reduceWithinWith onCall depth = r.reduceWithin depth := by
  induction depth generalizing r with
  -- Without a level the arithmetic is all there is, and `r` has no calls then.
  | zero => exact foldWith_of_calls_eq_nil (calls_of_callDepth_eq_zero (Nat.le_zero.1 h))
  | succ depth ih =>
    rw [reduceWithinWith, reduceWithin_add_one,
      substituteAll_congr fun a ha => ih (r := a) (by omega)]
    cases hs : r.substituteAll (reduceWithin depth) Function.all with
    | error failure => rfl
    | ok s => exact foldWith_of_calls_eq_nil (calls_of_substituteAll_all hs)

end Residual

open Residual

/-- Replacing calls leaves none behind.

- Whenever, in a residual that is reduced, the passes for the functions `before` have succeeded,
  none of these functions is called anywhere in it, and further passes bring no call of theirs back.
  After all passes no function is called.
- A pass meets no call of an earlier function, wherever in the residual it has got to.
- The arithmetic meets no call at all. Whatever it did with one, the value of the expression, or
  the failure, would be the same.
- There are no other residuals that are reduced. -/
theorem calls_of_reached (t : Expr) :
    (∀ r, Reached t (.reduce r) →
      (∀ before middle after s u, Function.all = before ++ (middle ++ after) →
        r.substituteAll Residual.reduce before = .ok s →
        s.substituteAll Residual.reduce middle = .ok u →
        ∀ f ∈ before, f ∉ s.calls ∧ f ∉ u.calls) ∧
      ∀ s, r.substituteAll Residual.reduce Function.all = .ok s → s.calls = []) ∧
    (∀ f r, Reached t (.pass f r) → ∀ g ∈ f.earlier, g ∉ r.calls) ∧
    (∀ r, Reached t (.fold r) → r.calls = []) ∧
    (∀ onCall, t.evaluateWith onCall = t.evaluate) ∧
    ∀ reduce' : Residual → Except Failure Float,
      (∀ a, Reached t (.reduce a) → reduce' a = a.reduce) →
      ∀ r, Reached t (.reduce r) →
        r.reduce = (r.substituteAll reduce' Function.all).bind fold := by
  refine ⟨fun r _ => ⟨fun before middle after s u _ hs hu f hf => ?_, fun s hs => ?_⟩,
    fun f r h => h.clear, fun r h => h.clear, fun onCall => ?_, fun reduce' h r hr => ?_⟩
  · have hnot : f ∉ s.calls := fun hcall => (mem_calls_of_substituteAll hs hcall).2 hf
    exact ⟨hnot, fun hcall => hnot (mem_calls_of_substituteAll hu hcall).1⟩
  · exact calls_of_substituteAll_all hs
  · exact reduceWithinWith_eq (Nat.le_refl _)
  · exact reduce_eq_of_reached hr h

/-- The pass for `sqrt` goes into the argument of `exp`, whose turn is later, and leaves no `sqrt`
there. -/
theorem calls_of_square_root_in_exponential :
    ∃ s u, Reached (.call .exp (.call .sqrt (.literal 4) none) none)
        (.reduce (.call .exp (.call .sqrt (.value 4) none) none)) ∧
      (Residual.call .exp (.call .sqrt (.value 4) none) none).substituteAll Residual.reduce
        [.sin, .cos, .tan, .log, .ln, .sqrt] = .ok s ∧
      s.substituteAll Residual.reduce [.exp] = .ok u ∧
      s.calls = [.exp] ∧ .sqrt ∉ s.calls ∧ .sqrt ∉ u.calls := by
  obtain ⟨hreduce, -⟩ := calls_of_reached (.call .exp (.call .sqrt (.literal 4) none) none)
  have hreached : Reached (.call .exp (.call .sqrt (.literal 4) none) none)
      (.reduce (.call .exp (.call .sqrt (.value 4) none) none)) := .refl
  have hfirst : (Residual.call .exp (.call .sqrt (.value 4) none) none).substituteAll
      Residual.reduce [.sin, .cos, .tan, .log, .ln, .sqrt] =
        .ok (.call .exp (.value 2) none) := by
    decide +kernel
  have hlast : (Residual.call .exp (.value 2) none).substituteAll Residual.reduce [.exp] =
      .ok (.value (Float.exp 2)) := rfl
  obtain ⟨hpasses, -⟩ := hreduce _ hreached
  obtain ⟨hs, hu⟩ := hpasses _ _ [] _ _ rfl hfirst hlast .sqrt (by decide)
  exact ⟨_, _, hreached, hfirst, hlast, rfl, hs, hu⟩

end DeskCalculator
