import DeskCalculator.Calculator
import Mathlib.Control.Monad.Basic

/-!
# Which failure wins

Evaluation as it is described to a user: search the expression for the first call of `sin`, evaluate
its argument, put the value in its place and search again; when there is none left go on with `cos`,
and so on through the functions; then do the arithmetic from left to right. The first failure ends
the work (`Reduces`).

**Theorem (`reduce_eq`).** To reduce a residual is to replace its calls, function by function, with
arguments reduced in the same way, and then to do the arithmetic. The number of levels is only there
to end the recursion: the argument of a call is nested less deep than the call (`substitute_congr`),
and replacing calls does not nest the others deeper (`callDepth_substitute_le`), so one more level
changes nothing once there are as many levels as the calls are deep (`reduceWithin_succ`).

**Theorem (`mem_calls_of_substituteAll`).** Replacing the calls of some functions leaves none of
theirs and adds no other. So after all functions no call is left (`calls_of_substituteAll_all`), and
the arithmetic meets none.

**Theorem (`evaluate_eq_iff_evaluatesInOrder`).** Evaluation gives exactly the result of the
description, which is the same value or the same failure with the same details. The calculator makes
one pass for each function instead of searching again after each call. The two agree because a pass
treats the first call first and then goes on as if it had begun after it (`First.substitute_eq`).
The description comes to an end because every replacement leaves fewer calls (`exists_reduces`).
-/

namespace DeskCalculator

namespace Residual

variable {reduce reduce' : Residual → Except Failure Float} {target : Function}

/-! ## The steps of a replacement -/

theorem bind_eq_ok {α β : Type} {x : Except Failure α} {f : α → Except Failure β} {b : β}
    (h : x.bind f = .ok b) : ∃ a, x = .ok a ∧ f a = .ok b := by
  cases x with
  | error e => cases h
  | ok a => exact ⟨a, rfl, h⟩

theorem substitute_binary (op : Operator) (left right : Residual) :
    (binary op left right).substitute reduce target =
      (left.substitute reduce target).bind fun l =>
        (right.substitute reduce target).bind fun r => .ok (binary op l r) := rfl

theorem substitute_negation (operand : Residual) :
    (negation operand).substitute reduce target =
      (operand.substitute reduce target).bind fun r => .ok (negation r) := rfl

theorem substitute_call_self (argument : Residual) (unsignedAt : Option Nat) :
    (call target argument unsignedAt).substitute reduce target =
      (reduce argument).bind fun x => (target.apply x).bind fun y =>
        .ok (ofCallValue target unsignedAt y) := by
  simp only [substitute, if_true]
  rfl

theorem substitute_call_of_ne {f : Function} (h : f ≠ target) (argument : Residual)
    (unsignedAt : Option Nat) :
    (call f argument unsignedAt).substitute reduce target =
      (argument.substitute reduce target).bind fun r => .ok (call f r unsignedAt) := by
  simp only [substitute, if_neg h]
  rfl

/-! ## Depth -/

@[simp] theorem callDepth_ofCallValue (f : Function) (unsignedAt : Option Nat) (x : Float) :
    (ofCallValue f unsignedAt x).callDepth = 0 := by
  unfold ofCallValue
  split
  · split <;> rfl
  · rfl

/-- Replacing calls does not nest the others deeper. -/
theorem callDepth_substitute_le {r s : Residual} (h : r.substitute reduce target = .ok s) :
    s.callDepth ≤ r.callDepth := by
  induction r generalizing s with
  | value x =>
    cases h
    exact Nat.le_refl _
  | misplaced place f x =>
    cases h
    exact Nat.le_refl _
  | binary op left right ihl ihr =>
    rw [substitute_binary] at h
    obtain ⟨l, hl, h⟩ := bind_eq_ok h
    obtain ⟨r, hr, h⟩ := bind_eq_ok h
    cases h
    have := ihl hl
    have := ihr hr
    simp only [callDepth]
    omega
  | call f argument unsignedAt ih =>
    by_cases hf : f = target
    · subst hf
      rw [substitute_call_self] at h
      obtain ⟨x, _, h⟩ := bind_eq_ok h
      obtain ⟨y, _, h⟩ := bind_eq_ok h
      cases h
      simp
    · rw [substitute_call_of_ne hf] at h
      obtain ⟨a, ha, h⟩ := bind_eq_ok h
      cases h
      have := ih ha
      simp only [callDepth]
      omega
  | negation operand ih =>
    rw [substitute_negation] at h
    obtain ⟨a, ha, h⟩ := bind_eq_ok h
    cases h
    simp only [callDepth]
    exact ih ha

/-- Only the arguments of calls matter for a replacement, and they are nested less deep. -/
theorem substitute_congr {r : Residual}
    (h : ∀ a : Residual, a.callDepth < r.callDepth → reduce a = reduce' a) :
    r.substitute reduce target = r.substitute reduce' target := by
  induction r with
  | value x => rfl
  | misplaced place f x => rfl
  | binary op left right ihl ihr =>
    simp only [callDepth] at h
    rw [substitute_binary, substitute_binary, ihl fun a ha => h a (by omega),
      ihr fun a ha => h a (by omega)]
  | call f argument unsignedAt ih =>
    simp only [callDepth] at h
    by_cases hf : f = target
    · subst hf
      rw [substitute_call_self, substitute_call_self, h argument (by omega)]
    · rw [substitute_call_of_ne hf, substitute_call_of_ne hf, ih fun a ha => h a (by omega)]
  | negation operand ih =>
    simp only [callDepth] at h
    rw [substitute_negation, substitute_negation, ih h]

/-! ## All functions -/

@[simp] theorem substituteAll_nil (r : Residual) : r.substituteAll reduce [] = .ok r := rfl

theorem substituteAll_cons (f : Function) (targets : List Function) (r : Residual) :
    r.substituteAll reduce (f :: targets) =
      (r.substitute reduce f).bind fun s => s.substituteAll reduce targets := rfl

theorem substituteAll_congr {targets : List Function} {r : Residual}
    (h : ∀ a : Residual, a.callDepth < r.callDepth → reduce a = reduce' a) :
    r.substituteAll reduce targets = r.substituteAll reduce' targets := by
  induction targets generalizing r with
  | nil => rfl
  | cons f targets ih =>
    rw [substituteAll_cons, substituteAll_cons, ← substitute_congr h]
    cases hs : r.substitute reduce f with
    | error e => rfl
    | ok s =>
      have := callDepth_substitute_le hs
      exact ih fun a ha => h a (by omega)

theorem substitute_of_callDepth_eq_zero {r : Residual} (h : r.callDepth = 0) :
    r.substitute reduce target = .ok r := by
  induction r with
  | value x => rfl
  | misplaced place f x => rfl
  | binary op left right ihl ihr =>
    simp only [callDepth] at h
    rw [substitute_binary, ihl (by omega), ihr (by omega)]
    rfl
  | call f argument unsignedAt ih => simp [callDepth] at h
  | negation operand ih =>
    rw [substitute_negation, ih h]
    rfl

theorem substituteAll_of_callDepth_eq_zero {targets : List Function} {r : Residual}
    (h : r.callDepth = 0) : r.substituteAll reduce targets = .ok r := by
  induction targets with
  | nil => rfl
  | cons f targets ih =>
    rw [substituteAll_cons, substitute_of_callDepth_eq_zero h]
    exact ih

/-! ## Levels -/

theorem reduceWithin_zero (r : Residual) : r.reduceWithin 0 = r.fold := rfl

theorem reduceWithin_add_one (depth : Nat) (r : Residual) :
    r.reduceWithin (depth + 1) =
      (r.substituteAll (reduceWithin depth) Function.all).bind fold := rfl

theorem reduceWithin_succ {depth : Nat} {r : Residual} (h : r.callDepth ≤ depth) :
    r.reduceWithin (depth + 1) = r.reduceWithin depth := by
  induction depth generalizing r with
  | zero =>
    rw [reduceWithin_add_one, substituteAll_of_callDepth_eq_zero (by omega)]
    rfl
  | succ depth ih =>
    rw [reduceWithin_add_one, reduceWithin_add_one,
      substituteAll_congr fun a ha => ih (r := a) (by omega)]

/-- As many levels as the calls are nested are enough. -/
theorem reduceWithin_eq_reduce {depth : Nat} {r : Residual} (h : r.callDepth ≤ depth) :
    r.reduceWithin depth = r.reduce := by
  induction depth with
  | zero => rw [reduce, Nat.le_zero.1 h]
  | succ depth ih =>
    by_cases hd : r.callDepth ≤ depth
    · rw [reduceWithin_succ hd, ih hd]
    · rw [reduce, show r.callDepth = depth + 1 by omega]

/-- Reducing replaces the calls, with arguments reduced in the same way, and does the arithmetic. -/
theorem reduce_eq (r : Residual) :
    r.reduce = (r.substituteAll Residual.reduce Function.all).bind fold := by
  rw [← reduceWithin_eq_reduce (Nat.le_succ r.callDepth), reduceWithin_add_one,
    substituteAll_congr fun a ha => reduceWithin_eq_reduce (Nat.le_of_lt ha)]

/-! ## The calls that are left -/

/-- The functions that are called, a call before the calls in its argument. -/
def calls : Residual → List Function
  | value _ | misplaced _ _ _ => []
  | binary _ left right => left.calls ++ right.calls
  | call f argument _ => f :: argument.calls
  | negation operand => operand.calls

variable {f : Function} {r s : Residual}

@[simp] theorem calls_ofCallValue (f : Function) (unsignedAt : Option Nat) (x : Float) :
    (ofCallValue f unsignedAt x).calls = [] := by
  unfold ofCallValue
  split
  · split <;> rfl
  · rfl

/-- A pass removes the calls of its function and adds no other. -/
theorem mem_calls_of_substitute (h : r.substitute reduce target = .ok s) (hf : f ∈ s.calls) :
    f ∈ r.calls ∧ f ≠ target := by
  induction r generalizing s with
  | value x =>
    cases h
    cases hf
  | misplaced place g x =>
    cases h
    cases hf
  | binary op left right ihl ihr =>
    rw [substitute_binary] at h
    obtain ⟨l, hl, h⟩ := bind_eq_ok h
    obtain ⟨r, hr, h⟩ := bind_eq_ok h
    cases h
    simp only [calls, List.mem_append] at hf ⊢
    rcases hf with hf | hf
    · exact ⟨.inl (ihl hl hf).1, (ihl hl hf).2⟩
    · exact ⟨.inr (ihr hr hf).1, (ihr hr hf).2⟩
  | call g argument unsignedAt ih =>
    by_cases hg : g = target
    · subst hg
      rw [substitute_call_self] at h
      obtain ⟨x, _, h⟩ := bind_eq_ok h
      obtain ⟨y, _, h⟩ := bind_eq_ok h
      cases h
      simp at hf
    · rw [substitute_call_of_ne hg] at h
      obtain ⟨a, ha, h⟩ := bind_eq_ok h
      cases h
      simp only [calls, List.mem_cons] at hf ⊢
      rcases hf with rfl | hf
      · exact ⟨.inl rfl, hg⟩
      · exact ⟨.inr (ih ha hf).1, (ih ha hf).2⟩
  | negation operand ih =>
    rw [substitute_negation] at h
    obtain ⟨a, ha, h⟩ := bind_eq_ok h
    cases h
    exact ih ha hf

/-- Passes remove the calls of their functions, and no later pass brings one back. -/
theorem mem_calls_of_substituteAll {targets : List Function}
    (h : r.substituteAll reduce targets = .ok s) (hf : f ∈ s.calls) :
    f ∈ r.calls ∧ f ∉ targets := by
  induction targets generalizing r with
  | nil =>
    cases h
    exact ⟨hf, by simp⟩
  | cons g targets ih =>
    rw [substituteAll_cons] at h
    obtain ⟨u, hu, h⟩ := bind_eq_ok h
    obtain ⟨hmem, hnot⟩ := ih h
    obtain ⟨hr, hne⟩ := mem_calls_of_substitute hu hmem
    exact ⟨hr, by simp [hne, hnot]⟩

theorem calls_of_substituteAll_all (h : r.substituteAll reduce Function.all = .ok s) :
    s.calls = [] :=
  List.eq_nil_iff_forall_not_mem.2 fun f hf =>
    (mem_calls_of_substituteAll h hf).2 (Function.mem_all f)

/-! ## The description -/

/-- A call inside a residual. -/
structure Occurrence where
  argument : Residual
  unsignedAt : Option Nat
  /-- The residual with something else in the place of the call. -/
  fill : Residual → Residual

/-- `First target r c`: the call `c` is the call of `target` in `r` that is written first. A call
comes before the calls in its argument. -/
inductive First (target : Function) : Residual → Occurrence → Prop where
  | here {argument unsignedAt} :
      First target (call target argument unsignedAt) ⟨argument, unsignedAt, id⟩
  | left {op left right c} : First target left c →
      First target (binary op left right) { c with fill := fun r => binary op (c.fill r) right }
  | right {op left right c} : target ∉ left.calls → First target right c →
      First target (binary op left right) { c with fill := fun r => binary op left (c.fill r) }
  | argument {f argument unsignedAt c} : f ≠ target → First target argument c →
      First target (call f argument unsignedAt)
        { c with fill := fun r => call f (c.fill r) unsignedAt }
  | operand {operand c} : First target operand c →
      First target (negation operand) { c with fill := fun r => negation (c.fill r) }

/-- `Computes r result`: the arithmetic of `r`, which has no calls, has the given result. The left
operand comes first. -/
inductive Computes : Residual → Except Failure Float → Prop where
  | value {x} : Computes (value x) (.ok x)
  | misplaced {place f x} : Computes (misplaced place f x)
      (.error (.invalidExpression place (.callValue f x) .unsignedValue))
  | binary {op left right x y} : Computes left (.ok x) → Computes right (.ok y) →
      Computes (binary op left right) (op.apply x y)
  | leftFails {op left right failure} : Computes left (.error failure) →
      Computes (binary op left right) (.error failure)
  | rightFails {op left right x failure} : Computes left (.ok x) →
      Computes right (.error failure) → Computes (binary op left right) (.error failure)
  | negation {operand x} : Computes operand (.ok x) → Computes (negation operand) (.ok (-x))
  | operandFails {operand failure} : Computes operand (.error failure) →
      Computes (negation operand) (.error failure)

/-- `Reduces order targets r result`: replacing the calls of the functions `targets`, one function
after the other and always the first call of it, and then doing the arithmetic has the given result.
Arguments are reduced in the same way, for all functions of `order`. -/
inductive Reduces (order : List Function) :
    List Function → Residual → Except Failure Float → Prop where
  | arithmetic {r result} : Computes r result → Reduces order [] r result
  | next {f targets r result} : f ∉ r.calls → Reduces order targets r result →
      Reduces order (f :: targets) r result
  | byValue {f targets r c x y result} : First f r c →
      Reduces order order c.argument (.ok x) → f.apply x = .ok y →
      (c.unsignedAt = none ∨ ¬ y < 0.0) →
      Reduces order (f :: targets) (c.fill (value y)) result →
      Reduces order (f :: targets) r result
  | byMarker {f targets r c x y place result} : First f r c →
      Reduces order order c.argument (.ok x) → f.apply x = .ok y →
      c.unsignedAt = some place → y < 0.0 →
      Reduces order (f :: targets) (c.fill (misplaced place f y)) result →
      Reduces order (f :: targets) r result
  | argumentFails {f targets r c failure} : First f r c →
      Reduces order order c.argument (.error failure) →
      Reduces order (f :: targets) r (.error failure)
  | applicationFails {f targets r c x failure} : First f r c →
      Reduces order order c.argument (.ok x) → f.apply x = .error failure →
      Reduces order (f :: targets) r (.error failure)

variable {c : Occurrence} {result : Except Failure Float}

/-! ## The first call -/

theorem substitute_of_not_mem_calls (h : target ∉ r.calls) :
    r.substitute reduce target = .ok r := by
  induction r with
  | value x => rfl
  | misplaced place f x => rfl
  | binary op left right ihl ihr =>
    simp only [calls, List.mem_append, not_or] at h
    rw [substitute_binary, ihl h.1, ihr h.2]
    rfl
  | call f argument unsignedAt ih =>
    simp only [calls, List.mem_cons, not_or] at h
    rw [substitute_call_of_ne (Ne.symm h.1), ih h.2]
    rfl
  | negation operand ih =>
    rw [substitute_negation, ih h]
    rfl

theorem ok_bind {α β : Type} (a : α) (f : α → Except Failure β) : (Except.ok a).bind f = f a := rfl

theorem bind_bind {α β γ : Type} (x : Except Failure α) (f : α → Except Failure β)
    (g : β → Except Failure γ) : (x.bind f).bind g = x.bind fun a => (f a).bind g := by
  cases x <;> rfl

/-- A pass replaces the first call and goes on with what is then there. -/
theorem First.substitute_eq (h : First target r c) :
    r.substitute reduce target =
      (reduce c.argument).bind fun x => (target.apply x).bind fun y =>
        (c.fill (ofCallValue target c.unsignedAt y)).substitute reduce target := by
  induction h with
  | here =>
    have hdone : ∀ u y, (ofCallValue target u y).substitute reduce target =
        .ok (ofCallValue target u y) :=
      fun u y => substitute_of_not_mem_calls (by simp)
    simp only [substitute_call_self, id, hdone]
  | left _ ih => simp only [substitute_binary, ih, bind_bind]
  | right hleft _ ih =>
    simp only [substitute_binary, substitute_of_not_mem_calls hleft, ih, ok_bind, bind_bind]
  | argument hne _ ih => simp only [substitute_call_of_ne hne, ih, bind_bind]
  | operand _ ih => simp only [substitute_negation, ih, bind_bind]

/-- In reading order no call of `target` stands before the first one. Another residual in its place
replaces it and the calls in its argument. -/
theorem First.calls_eq (h : First target r c) :
    ∃ before after, target ∉ before ∧
      r.calls = before ++ target :: (c.argument.calls ++ after) ∧
      ∀ s, (c.fill s).calls = before ++ (s.calls ++ after) := by
  induction h with
  | here => exact ⟨[], [], by simp, by simp [calls], by simp⟩
  | @left _ _ right _ _ ih =>
    obtain ⟨before, after, hbefore, hcalls, hfill⟩ := ih
    exact ⟨before, after ++ right.calls, hbefore, by simp [calls, hcalls], by simp [calls, hfill]⟩
  | @right _ left _ _ hleft _ ih =>
    obtain ⟨before, after, hbefore, hcalls, hfill⟩ := ih
    exact ⟨left.calls ++ before, after, by simp [hleft, hbefore], by simp [calls, hcalls],
      by simp [calls, hfill]⟩
  | @argument f _ _ _ hne _ ih =>
    obtain ⟨before, after, hbefore, hcalls, hfill⟩ := ih
    exact ⟨f :: before, after, by simp [Ne.symm hne, hbefore], by simp [calls, hcalls],
      by simp [calls, hfill]⟩
  | operand _ ih => exact ih

theorem exists_first (h : target ∈ r.calls) : ∃ c, First target r c := by
  induction r with
  | value x => cases h
  | misplaced place f x => cases h
  | binary op left right ihl ihr =>
    by_cases hleft : target ∈ left.calls
    · obtain ⟨c, hc⟩ := ihl hleft
      exact ⟨_, .left hc⟩
    · obtain ⟨c, hc⟩ := ihr ((List.mem_append.1 h).resolve_left hleft)
      exact ⟨_, .right hleft hc⟩
  | call f argument unsignedAt ih =>
    by_cases hf : f = target
    · subst hf
      exact ⟨_, .here⟩
    · obtain ⟨c, hc⟩ := ih ((List.mem_cons.1 h).resolve_left (Ne.symm hf))
      exact ⟨_, .argument hf hc⟩
  | negation operand ih =>
    obtain ⟨c, hc⟩ := ih h
    exact ⟨_, .operand hc⟩

/-! ## The calculator follows the description -/

theorem Computes.eq (h : Computes r result) : result = r.fold := by
  induction h with
  | value => rfl
  | misplaced => rfl
  | binary _ _ ihl ihr => simp only [fold, ← ihl, ← ihr]; rfl
  | leftFails _ ih => simp only [fold, ← ih]; rfl
  | rightFails _ _ ihl ihr => simp only [fold, ← ihl, ← ihr]; rfl
  | negation _ ih => simp only [fold, ← ih]; rfl
  | operandFails _ ih => simp only [fold, ← ih]; rfl

theorem ofCallValue_of_sign_allowed {unsignedAt : Option Nat} {y : Float}
    (h : unsignedAt = none ∨ ¬ y < 0.0) : ofCallValue f unsignedAt y = value y := by
  rcases h with rfl | hpos
  · rfl
  · cases unsignedAt <;> simp [ofCallValue, hpos]

theorem First.substituteAll_eq {targets : List Function} (h : First f r c) :
    r.substituteAll reduce (f :: targets) =
      (reduce c.argument).bind fun x => (f.apply x).bind fun y =>
        (c.fill (ofCallValue f c.unsignedAt y)).substituteAll reduce (f :: targets) := by
  simp only [substituteAll_cons, h.substitute_eq, bind_bind]

/-- What a residual reduces to is what the passes and the arithmetic after them give. -/
theorem Reduces.eq {targets : List Function} (h : Reduces Function.all targets r result) :
    result = (r.substituteAll Residual.reduce targets).bind fold := by
  -- A rule replaces the first call of its function, and `First.substituteAll_eq` says that passes
  -- begin with it as well.
  induction h with
  | arithmetic h => exact h.eq
  | next hnot _ ih =>
    rw [substituteAll_cons, substitute_of_not_mem_calls hnot]
    exact ih
  | byValue hc _ hy hsign _ iharg ih =>
    rw [← reduce_eq] at iharg
    rw [hc.substituteAll_eq, ← iharg, ok_bind, hy, ok_bind, ofCallValue_of_sign_allowed hsign]
    exact ih
  | @byMarker f _ _ c _ y place _ hc _ hy hplace hneg _ iharg ih =>
    have hmarker : ofCallValue f c.unsignedAt y = misplaced place f y := by
      simp [ofCallValue, hplace, hneg]
    rw [← reduce_eq] at iharg
    rw [hc.substituteAll_eq, ← iharg, ok_bind, hy, ok_bind, hmarker]
    exact ih
  | argumentFails hc _ iharg =>
    rw [← reduce_eq] at iharg
    rw [hc.substituteAll_eq, ← iharg]
    rfl
  | applicationFails hc _ hx iharg =>
    rw [← reduce_eq] at iharg
    rw [hc.substituteAll_eq, ← iharg, ok_bind, hx]
    rfl

theorem exists_computes (h : r.calls = []) : ∃ result, Computes r result := by
  induction r with
  | value x => exact ⟨_, .value⟩
  | misplaced place f x => exact ⟨_, .misplaced⟩
  | binary op left right ihl ihr =>
    obtain ⟨hl, hr⟩ := List.append_eq_nil_iff.1 h
    obtain ⟨resultl, hl⟩ := ihl hl
    obtain ⟨resultr, hr⟩ := ihr hr
    cases resultl with
    | error failure => exact ⟨_, .leftFails hl⟩
    | ok x =>
      cases resultr with
      | error failure => exact ⟨_, .rightFails hl hr⟩
      | ok y => exact ⟨_, .binary hl hr⟩
  | call f argument unsignedAt ih => cases h
  | negation operand ih =>
    obtain ⟨result, ho⟩ := ih h
    cases result with
    | error failure => exact ⟨_, .operandFails ho⟩
    | ok x => exact ⟨_, .negation ho⟩

/-- Once its argument is reduced, a call fails or makes way for something without calls. -/
theorem First.exists_reduces {order targets : List Function} {x : Float} (hc : First f r c)
    (harg : Reduces order order c.argument (.ok x))
    (hfill : ∀ s : Residual, s.calls = [] →
      ∃ result, Reduces order (f :: targets) (c.fill s) result) :
    ∃ result, Reduces order (f :: targets) r result := by
  cases hy : f.apply x with
  | error failure => exact ⟨_, .applicationFails hc harg hy⟩
  | ok y =>
    by_cases hsign : c.unsignedAt = none ∨ ¬ y < 0.0
    · obtain ⟨result, hr⟩ := hfill (value y) rfl
      exact ⟨result, .byValue hc harg hy hsign hr⟩
    · rw [not_or, Classical.not_not] at hsign
      obtain ⟨place, hplace⟩ := Option.ne_none_iff_exists'.1 hsign.1
      obtain ⟨result, hr⟩ := hfill (misplaced place f y) rfl
      exact ⟨result, .byMarker hc harg hy hplace hsign.2 hr⟩

/-- The search comes to an end: every replacement leaves fewer calls, and so does every argument. -/
theorem exists_reduces (targets : List Function) (r : Residual) (h : ∀ f ∈ r.calls, f ∈ targets) :
    ∃ result, Reduces Function.all targets r result := by
  -- A replacement leaves fewer calls, and so does an argument. Otherwise one function less is left.
  match targets with
  | [] =>
    obtain ⟨result, hr⟩ := exists_computes (List.eq_nil_iff_forall_not_mem.2 fun f hf => by
      simpa using h f hf)
    exact ⟨result, .arithmetic hr⟩
  | f :: targets =>
    by_cases hmem : f ∈ r.calls
    · obtain ⟨c, hc⟩ := exists_first hmem
      obtain ⟨before, after, -, hcalls, hfill⟩ := hc.calls_eq
      obtain ⟨resultarg, harg⟩ := exists_reduces Function.all c.argument fun g _ =>
        Function.mem_all g
      cases resultarg with
      | error failure => exact ⟨_, .argumentFails hc harg⟩
      | ok x =>
        refine hc.exists_reduces harg fun s hs =>
          exists_reduces (f :: targets) (c.fill s) fun g hg => h g ?_
        rw [hfill, hs, List.nil_append, List.mem_append] at hg
        rw [hcalls, List.mem_append]
        refine hg.imp_right fun hafter => ?_
        exact List.mem_cons_of_mem f (List.mem_append.2 (.inr hafter))
    · obtain ⟨result, hr⟩ := exists_reduces targets r fun g hg =>
        (List.mem_cons.1 (h g hg)).resolve_left fun heq => hmem (heq ▸ hg)
      exact ⟨result, .next hmem hr⟩
termination_by (r.calls.length, targets.length)
decreasing_by
  · refine .left _ _ ?_
    simp only [hcalls, List.length_append, List.length_cons]
    omega
  · refine .left _ _ ?_
    simp only [hcalls, hfill, hs, List.length_append, List.length_cons, List.length_nil]
    omega
  · exact .right _ (Nat.lt_succ_self _)

theorem reduces_reduce (r : Residual) : Reduces Function.all Function.all r r.reduce := by
  obtain ⟨result, h⟩ := exists_reduces Function.all r fun f _ => Function.mem_all f
  rw [reduce_eq, ← h.eq]
  exact h

end Residual

/-- The result of an expression, as it is described: function by function in the given order, the
first call first. -/
def Expr.EvaluatesInOrder (order : List Function) (e : Expr) (result : Except Failure Float) :
    Prop :=
  Residual.Reduces order order (.ofExpr e) result

/-- Evaluation gives the result that is described, with the functions in the order `sin`, `cos`,
`tan`, `log`, `ln`, `sqrt`, `exp`. -/
theorem evaluate_eq_iff_evaluatesInOrder (e : Expr) (result : Except Failure Float) :
    e.evaluate = result ↔
      e.EvaluatesInOrder [.sin, .cos, .tan, .log, .ln, .sqrt, .exp] result := by
  constructor
  · rintro rfl
    exact Residual.reduces_reduce (.ofExpr e)
  · intro h
    have heq : result = ((Residual.ofExpr e).substituteAll Residual.reduce Function.all).bind
        Residual.fold := Residual.Reduces.eq h
    rw [← Residual.reduce_eq] at heq
    exact heq.symm

/-- The tangent comes before the square root, although it is written behind it. -/
example : (Expr.binary .add (.call .sqrt (.literal (-1)) none)
    (.call .tan (.literal 90) none)).evaluate = .error (.undefinedTangent 90) := by
  decide +kernel

end DeskCalculator
