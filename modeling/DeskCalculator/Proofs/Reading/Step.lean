import DeskCalculator.Calculator

/-!
# The steps of a reading

`Reading.step` computes what one more token leads to. Here the same steps are listed as a relation,
one rule for each thing that a token can be.

**Theorem (`Step.of_step`, `Step.step_eq`).** A token leads from one reading to another exactly by
one of the rules, as long as it opens no level beyond the limit.

**Theorem (`step_eq_error`).** A token that leads nowhere is refused itself, unless it opens one
level too many.

**Runs** (`Steps.run_eq`). Each token opens at most one level, so a limit that is no smaller than
the number of tokens is never met.
-/

namespace DeskCalculator

namespace Sign

/-- The sign turns a value around. -/
def isNegative : Sign → Bool
  | plus => false
  | minus => true

theorem applyToValue_eq (s : Sign) (x : Float) :
    s.applyToValue x = if s.isNegative then -x else x := by
  cases s <;> rfl

theorem close_call (s : Sign) (f : Function) (unsignedAt : Option Nat) (e : Expr) :
    (Opener.call f unsignedAt s.isNegative).close e = s.applyToCall (.call f e unsignedAt) := by
  cases s <;> rfl

end Sign

namespace Reading

/-! ## The rules -/

/-- `Step r t s`: the token `t` leads from `r` to `s`. -/
inductive Step : Reading → Token → Reading → Prop where
  | number {levels waiting b t x} : t.kind = .number x →
      Step ⟨levels, waiting, .operand b⟩ t ⟨levels, waiting, .operator (.literal x)⟩
  | name {levels waiting b t f} : t.kind = .name → Function.ofName? t.text = some f →
      Step ⟨levels, waiting, .operand b⟩ t
        ⟨levels, waiting, .argument f (if b then none else some t.position) false⟩
  | group {levels waiting b t} : t.kind = .opening →
      Step ⟨levels, waiting, .operand b⟩ t ⟨⟨.group, waiting⟩ :: levels, [], .operand true⟩
  | sign {levels waiting t} {sign : Sign} : t.kind = .operator sign.operator →
      Step ⟨levels, waiting, .operand true⟩ t ⟨levels, waiting, .signed sign.isNegative⟩
  | signedNumber {levels waiting negative t x} : t.kind = .number x →
      Step ⟨levels, waiting, .signed negative⟩ t
        ⟨levels, waiting, .operator (.literal (if negative then -x else x))⟩
  | signedName {levels waiting negative t f} : t.kind = .name →
      Function.ofName? t.text = some f →
      Step ⟨levels, waiting, .signed negative⟩ t
        ⟨levels, waiting, .argument f (some t.position) negative⟩
  | argument {levels waiting f unsignedAt negated t} : t.kind = .opening →
      Step ⟨levels, waiting, .argument f unsignedAt negated⟩ t
        ⟨⟨.call f unsignedAt negated, waiting⟩ :: levels, [], .operand true⟩
  | operator {levels waiting e t op} : t.kind = .operator op →
      Step ⟨levels, waiting, .operator e⟩ t
        ⟨levels, ⟨(Waiting.settle op.tier waiting e).2, op⟩ :: (Waiting.settle op.tier waiting e).1,
          .operand (op = .add)⟩
  | close {opener outer levels waiting e t} : t.kind = .closing →
      Step ⟨⟨opener, outer⟩ :: levels, waiting, .operator e⟩ t
        ⟨levels, outer, .operator (opener.close (Waiting.settleAll waiting e))⟩

/-- `Steps r tokens s`: the tokens lead from `r` to `s`, one after the other. -/
inductive Steps : Reading → List Token → Reading → Prop where
  | nil {r} : Steps r [] r
  | cons {r t s tokens u} : Step r t s → Steps s tokens u → Steps r (t :: tokens) u

variable {maxDepth : Nat} {r s : Reading} {t : Token} {failure : Failure}

theorem Step.length_levels_le (h : Step r t s) : s.levels.length ≤ r.levels.length + 1 := by
  cases h <;> grind

/-! ## One token -/

theorem openLevel_eq_ok_iff {opener : Opener} :
    r.openLevel maxDepth opener = .ok s ↔
      r.levels.length < maxDepth ∧ ⟨⟨opener, r.waiting⟩ :: r.levels, [], .operand true⟩ = s := by
  unfold openLevel
  split <;> simp <;> omega

theorem takeName_eq_ok_iff {b negated : Bool} :
    r.takeName t b negated = .ok s ↔ ∃ f, Function.ofName? t.text = some f ∧
      { r with next := .argument f (if b then none else some t.position) negated } = s := by
  unfold takeName
  cases Function.ofName? t.text <;> simp [refuse]

/-- The rules are followed wherever the depth allows it. -/
theorem Step.step_eq (h : Step r t s)
    (hdepth : r.levels.length < s.levels.length → r.levels.length < maxDepth) :
    r.step maxDepth t = .ok s := by
  cases h with
  | number hk => simp [step, takeOperand, hk, withOperand]
  | name hk hf => simp [step, takeOperand, hk, takeName, hf]
  | group hk => simpa [step, takeOperand, hk, openLevel_eq_ok_iff] using hdepth
  | @sign _ _ _ sign hk =>
    cases sign <;> simp [step, takeOperand, hk, Sign.operator, Sign.isNegative]
  | signedNumber hk => simp [step, takeSigned, hk, withOperand]
  | signedName hk hf => simp [step, takeSigned, hk, takeName, hf]
  | argument hk => simpa [step, takeArgument, hk, openLevel_eq_ok_iff] using hdepth
  | operator hk => simp [step, takeOperator, hk]
  | close hk => simp [step, takeOperator, hk]

/-- Every step that is made follows a rule, and opens a level only where the depth allows it. -/
theorem Step.of_step (h : r.step maxDepth t = .ok s) :
    Step r t s ∧ (r.levels.length < s.levels.length → r.levels.length < maxDepth) := by
  obtain ⟨levels, waiting, next⟩ := r
  cases next with
  | operand b =>
    simp only [step, takeOperand] at h
    split at h
    next x hk => cases h; exact ⟨.number hk, by simp [withOperand]⟩
    next hk =>
      obtain ⟨f, hf, rfl⟩ := takeName_eq_ok_iff.1 h
      exact ⟨.name hk hf, by simp⟩
    next hk =>
      obtain ⟨hd, rfl⟩ := openLevel_eq_ok_iff.1 h
      exact ⟨.group hk, fun _ => hd⟩
    next hk =>
      cases b <;> simp [refuse] at h
      subst h
      exact ⟨@Step.sign _ _ _ .plus hk, by simp⟩
    next hk =>
      cases b <;> simp [refuse] at h
      subst h
      exact ⟨@Step.sign _ _ _ .minus hk, by simp⟩
    all_goals cases h
  | signed negative =>
    simp only [step, takeSigned] at h
    split at h
    next x hk => cases h; exact ⟨.signedNumber hk, by simp [withOperand]⟩
    next hk =>
      obtain ⟨f, hf, rfl⟩ := takeName_eq_ok_iff.1 h
      exact ⟨.signedName hk hf, by simp⟩
    all_goals cases h
  | argument f unsignedAt negated =>
    simp only [step, takeArgument] at h
    split at h
    next hk =>
      obtain ⟨hd, rfl⟩ := openLevel_eq_ok_iff.1 h
      exact ⟨.argument hk, fun _ => hd⟩
    all_goals cases h
  | operator e =>
    simp only [step, takeOperator] at h
    split at h
    next op hk => cases h; exact ⟨.operator hk, by simp⟩
    next hk =>
      cases levels with
      | nil => cases h
      | cons level levels =>
        cases h
        exact ⟨.close hk, fun hlt => absurd hlt (Nat.not_lt.2 (Nat.le_succ _))⟩
    all_goals cases h

theorem openLevel_eq_error {opener : Opener} (h : r.openLevel maxDepth opener = .error failure) :
    failure = .tooDeep maxDepth ∧ maxDepth ≤ r.levels.length := by
  unfold openLevel at h
  split at h
  next hd => cases h; exact ⟨rfl, hd⟩
  next => cases h

theorem takeName_eq_error {b negated : Bool} (h : r.takeName t b negated = .error failure) :
    failure = .invalidExpression t.position (.token t.text) .functionName := by
  unfold takeName at h
  split at h <;> cases h
  rfl

/-- A token that opens a level finds the limit reached, and every other token that leads nowhere is
refused as it is. -/
theorem step_eq_error (h : r.step maxDepth t = .error failure) :
    failure = .tooDeep maxDepth ∧ maxDepth ≤ r.levels.length ∨
      ∃ expected, failure = .invalidExpression t.position (.token t.text) expected := by
  obtain ⟨levels, waiting, next⟩ := r
  cases next with
  | operand b =>
    simp only [step, takeOperand] at h
    split at h
    next => cases h
    next => exact .inr ⟨_, takeName_eq_error h⟩
    next => exact .inl (openLevel_eq_error h)
    all_goals cases b <;> simp [refuse] at h <;> exact .inr ⟨_, h.symm⟩
  | signed negative =>
    simp only [step, takeSigned] at h
    split at h
    next => cases h
    next => exact .inr ⟨_, takeName_eq_error h⟩
    all_goals exact .inr ⟨_, by simpa [refuse] using h.symm⟩
  | argument f unsignedAt negated =>
    simp only [step, takeArgument] at h
    split at h
    next => exact .inl (openLevel_eq_error h)
    all_goals exact .inr ⟨_, by simpa [refuse] using h.symm⟩
  | operator e =>
    simp only [step, takeOperator] at h
    split at h
    next => cases h
    next =>
      cases levels with
      | nil => exact .inr ⟨_, by simpa [refuse] using h.symm⟩
      | cons level levels => cases h
    all_goals exact .inr ⟨_, by simpa [refuse] using h.symm⟩

/-! ## Many tokens -/

theorem Step.steps (h : Step r t s) : Steps r [t] s := .cons h .nil

theorem Steps.append {u : Reading} {ts us : List Token} (h : Steps r ts s) (h' : Steps s us u) :
    Steps r (ts ++ us) u := by
  induction h with
  | nil => exact h'
  | cons ht _ ih => exact .cons ht (ih h')

theorem Steps.of_run {tokens : List Token} (h : r.run maxDepth tokens = .ok s) :
    Steps r tokens s := by
  induction tokens generalizing r with
  | nil => cases h; exact .nil
  | cons t tokens ih =>
    rw [run_cons] at h
    cases ht : r.step maxDepth t with
    | error failure => rw [ht] at h; cases h
    | ok u =>
      rw [ht] at h
      exact .cons (Step.of_step ht).1 (ih h)

/-- A limit that leaves room for every token to open a level is never met. -/
theorem Steps.run_eq {tokens : List Token} (h : Steps r tokens s)
    (hdepth : r.levels.length + tokens.length ≤ maxDepth) : r.run maxDepth tokens = .ok s := by
  induction h with
  | nil => rfl
  | @cons r t s tokens u ht _ ih =>
    have hle := ht.length_levels_le
    rw [List.length_cons] at hdepth
    rw [run_cons, ht.step_eq fun _ => by omega]
    exact ih (by omega)

end Reading

end DeskCalculator
