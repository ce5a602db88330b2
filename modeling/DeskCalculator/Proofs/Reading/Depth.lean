import DeskCalculator.Proofs.Reading.Refusal
import Mathlib.Data.List.Infix

/-!
# The limits

**Theorem (`parse_within_limits`).** A text that is too long is refused for its length. Every other
text is read as if there were no limit to its depth, unless more parentheses are open at some point
than the limit allows. Only the tokens count that are read before the text is refused for another
reason.

The open levels of a reading are the parentheses that are open after its tokens
(`Steps.length_levels_eq`). So a limit is met exactly where that number exceeds it
(`Steps.run_of_le`, `Steps.run_of_lt`), and a refusal of another kind does not depend on the limit
(`step_eq_error_of_error`).
-/

namespace DeskCalculator

namespace Reading

variable {maxDepth depth size : Nat} {r s u : Reading} {t : Token} {tokens : List Token}
  {failure : Failure}

/-! ## Open levels -/

theorem Step.length_levels_eq (h : Step r t s) :
    (s.levels.length : Int) = r.levels.length + t.delta := by
  cases h with
  | number hk | signedNumber hk => simp [Token.delta_number hk]
  | name hk _ | signedName hk _ => simp [Token.delta_name hk]
  | group hk | argument hk => simp [Token.delta_opening hk]
  | sign hk | operator hk => simp [Token.delta_operator hk]
  | close hk =>
    simp only [Token.delta_closing hk, List.length_cons]
    omega

/-- The open levels are the parentheses that are open. -/
theorem Steps.length_levels_eq (h : Steps r tokens s) :
    (s.levels.length : Int) = r.levels.length + nesting tokens := by
  induction h with
  | nil => simp
  | cons ht _ ih =>
    rw [ih, ht.length_levels_eq, nesting_cons, Int.add_assoc]

/-! ## Runs with a limit -/

theorem Step.step_eq_tooDeep (h : Step r t s) (hopens : r.levels.length < s.levels.length)
    (hlevels : maxDepth ≤ r.levels.length) : r.step maxDepth t = .error (.tooDeep maxDepth) := by
  cases h with
  | group hk => simp [step, takeOperand, hk, openLevel, hlevels]
  | argument hk => simp [step, takeArgument, hk, openLevel, hlevels]
  | close hk =>
    simp only [List.length_cons] at hopens
    omega
  | _ => exact absurd hopens (Nat.lt_irrefl _)

/-- Tokens that never open more levels than the limit allows are read. -/
theorem Steps.run_of_le (h : Steps r tokens s)
    (hdepth : ∀ read, read <+: tokens → r.levels.length + nesting read ≤ maxDepth) :
    r.run maxDepth tokens = .ok s := by
  induction h with
  | nil => rfl
  | @cons r t s tokens u ht _ ih =>
    have hlevels := ht.length_levels_eq
    have hfirst := hdepth [t] ⟨tokens, rfl⟩
    simp only [nesting_cons, nesting_nil, Int.add_zero] at hfirst
    rw [run_cons, ht.step_eq fun _ => by omega]
    refine ih fun read hread => ?_
    have hnext := hdepth (t :: read) (List.cons_prefix_cons.2 ⟨rfl, hread⟩)
    rw [nesting_cons] at hnext
    omega

/-- Tokens that open more levels than the limit allows meet the limit. -/
theorem Steps.run_of_lt (h : Steps r tokens s) (hlevels : r.levels.length ≤ maxDepth)
    {read : List Token} (hread : read <+: tokens)
    (hdeep : (maxDepth : Int) < r.levels.length + nesting read) :
    r.run maxDepth tokens = .error (.tooDeep maxDepth) := by
  induction h generalizing read with
  | nil =>
    rw [List.prefix_nil.1 hread, nesting_nil] at hdeep
    omega
  | @cons r t s tokens u ht _ ih =>
    have hlength := ht.length_levels_eq
    rw [run_cons]
    by_cases hs : s.levels.length ≤ maxDepth
    · rw [ht.step_eq fun _ => by omega]
      rcases List.prefix_cons_iff.1 hread with rfl | ⟨rest, rfl, hrest⟩
      · rw [nesting_nil] at hdeep
        omega
      · rw [nesting_cons] at hdeep
        exact ih hs hrest (by omega)
    · have hle := ht.length_levels_le
      rw [ht.step_eq_tooDeep (by omega) (by omega)]
      rfl

theorem step_of_kind_ne_opening (h : t.kind ≠ .opening) (maxDepth : Nat) :
    r.step depth t = r.step maxDepth t := by
  obtain ⟨levels, waiting, next⟩ := r
  cases next with
  | operand b =>
    cases hk : t.kind with
    | opening => exact absurd hk h
    | operator op => cases op <;> simp only [step, takeOperand, hk]
    | _ => simp only [step, takeOperand, hk]
  | argument f unsignedAt negated =>
    cases hk : t.kind with
    | opening => exact absurd hk h
    | _ => simp only [step, takeArgument, hk]
  | signed negative => rfl
  | operator e => rfl

/-- Where there is room for one more level, a refusal does not depend on the limit. -/
theorem step_eq_error_of_error (h : r.step depth t = .error failure)
    (hroom : r.levels.length < depth) (maxDepth : Nat) : r.step maxDepth t = .error failure := by
  by_cases hk : t.kind = .opening
  · obtain ⟨levels, waiting, next⟩ := r
    cases next with
    | operand b =>
      simp [step, takeOperand, hk, openLevel, Nat.not_le.2 hroom] at h
    | argument f unsignedAt negated =>
      simp [step, takeArgument, hk, openLevel, Nat.not_le.2 hroom] at h
    | signed negative => exact h
    | operator e => exact h
  · rw [← step_of_kind_ne_opening hk maxDepth]
    exact h

end Reading

open Reading

/-! ## Lists of tokens -/

/-- At some point among the tokens more parentheses are open than `maxDepth`. -/
def Overruns (maxDepth : Nat) (tokens : List Token) : Prop :=
  ∃ read, read <+: tokens ∧ (maxDepth : Int) < nesting read

instance (maxDepth : Nat) (tokens : List Token) : Decidable (Overruns maxDepth tokens) :=
  decidable_of_iff (∃ read ∈ tokens.inits, (maxDepth : Int) < nesting read)
    (by simp only [List.mem_inits, Overruns])

theorem Overruns.of_le {maxDepth maxDepth' : Nat} {tokens : List Token}
    (h : Overruns maxDepth' tokens) (hle : maxDepth ≤ maxDepth') : Overruns maxDepth tokens := by
  obtain ⟨read, hread, hdeep⟩ := h
  exact ⟨read, hread, by omega⟩

/-- The tokens in front of the one that the result names. A tree and the end of the input come
after all of them. -/
def tokensBefore (tokens : List Token) : Except Failure Expr → List Token
  | .error (.invalidExpression place (.token _) _) => tokens.takeWhile (·.position != place)
  | _ => tokens

variable {maxDepth depth size : Nat} {tokens : List Token} {limits limits' : Limits} {s : String}

theorem tokensBefore_finish (tokens : List Token) (r : Reading) (size : Nat) :
    tokensBefore tokens (r.finish size) = tokens := by
  unfold finish
  split <;> rfl

theorem tokensBefore_isPrefix (tokens : List Token) (result : Except Failure Expr) :
    tokensBefore tokens result <+: tokens := by
  unfold tokensBefore
  split
  · exact List.takeWhile_prefix _
  · exact List.prefix_refl _

/-- With room for every token, reading goes on up to the token that the result names. What comes
then does not depend on the limit, as long as these tokens can be read. -/
theorem exists_steps_tokensBefore (size : Nat)
    (horder : tokens.Pairwise (·.position < ·.position)) (hdepth : tokens.length ≤ depth) :
    ∃ r, Steps start (tokensBefore tokens (Expr.ofTokens depth size tokens)) r ∧
      ∀ maxDepth, Expr.ofTokens maxDepth size tokens =
        (start.run maxDepth (tokensBefore tokens (Expr.ofTokens depth size tokens))).bind
          fun _ => Expr.ofTokens depth size tokens := by
  cases hrun : start.run depth tokens with
  | ok r =>
    have hread : Expr.ofTokens depth size tokens = r.finish size := by
      simp [Expr.ofTokens, hrun, Except.bind]
    have hsteps := Steps.of_run hrun
    rw [hread, tokensBefore_finish]
    refine ⟨r, hsteps, fun maxDepth => ?_⟩
    rw [Expr.ofTokens]
    cases hrun' : start.run maxDepth tokens with
    | error failure => rfl
    | ok r' =>
      rw [(Steps.of_run hrun').unique hsteps]
      rfl
  | error failure =>
    have hread : Expr.ofTokens depth size tokens = .error failure := by
      simp [Expr.ofTokens, hrun, Except.bind]
    obtain ⟨before, t, after, r, expected, rfl, hbefore, hroom, ht, rfl⟩ :=
      run_start_eq_error hrun hdepth
    have hsteps := Steps.of_run hbefore
    rw [hread, tokensBefore, takeWhile_position_ne horder]
    refine ⟨r, hsteps, fun maxDepth => ?_⟩
    rw [Expr.ofTokens, run_append]
    cases hrun' : start.run maxDepth before with
    | error failure => rfl
    | ok r' =>
      cases (Steps.of_run hrun').unique hsteps
      have hstep := step_eq_error_of_error ht hroom maxDepth
      simp [Except.bind, run_cons, hstep]

theorem ofTokens_eq_tooDeep (horder : tokens.Pairwise (·.position < ·.position))
    (hdepth : tokens.length ≤ depth)
    (h : Overruns maxDepth (tokensBefore tokens (Expr.ofTokens depth size tokens))) :
    Expr.ofTokens maxDepth size tokens = .error (.tooDeep maxDepth) := by
  obtain ⟨r, hsteps, heq⟩ := exists_steps_tokensBefore size horder hdepth
  obtain ⟨read, hread, hdeep⟩ := h
  rw [heq maxDepth, hsteps.run_of_lt (Nat.zero_le _) hread (by simpa [start] using hdeep)]
  rfl

theorem ofTokens_eq_of_not_overruns (horder : tokens.Pairwise (·.position < ·.position))
    (hdepth : tokens.length ≤ depth)
    (h : ¬ Overruns maxDepth (tokensBefore tokens (Expr.ofTokens depth size tokens))) :
    Expr.ofTokens maxDepth size tokens = Expr.ofTokens depth size tokens := by
  obtain ⟨r, hsteps, heq⟩ := exists_steps_tokensBefore size horder hdepth
  have hshallow : ∀ read, read <+: tokensBefore tokens (Expr.ofTokens depth size tokens) →
      (start.levels.length : Int) + nesting read ≤ maxDepth := by
    intro read hread
    refine Int.not_lt.1 fun hdeep => h ⟨read, hread, ?_⟩
    simpa [start] using hdeep
  rw [heq maxDepth, hsteps.run_of_le hshallow]
  rfl

theorem nesting_le_of_ofTokens {e : Expr} {read : List Token}
    (h : Expr.ofTokens maxDepth size tokens = .ok e) (hread : read <+: tokens) :
    nesting read ≤ maxDepth := by
  obtain ⟨r, hrun, -⟩ := Expr.ofTokens_eq_ok_iff_run.1 h
  refine Int.not_lt.1 fun hdeep => ?_
  rw [(Steps.of_run hrun).run_of_lt (Nat.zero_le _) hread (by simpa [start] using hdeep)] at hrun
  cases hrun

theorem Derives.ofTokens_eq_of_nesting {e : Expr} (h : Derives .sum true tokens e)
    (hdepth : ∀ read, read <+: tokens → nesting read ≤ maxDepth) (size : Nat) :
    Expr.ofTokens maxDepth size tokens = .ok e := by
  obtain ⟨waiting, e', hsteps, hall⟩ := h.reads.settleAll []
  refine Expr.ofTokens_eq_ok_iff_run.2 ⟨_, hsteps.run_of_le fun read hread => ?_, ?_⟩
  · simpa using hdepth read hread
  · simp [finish, hall]

/-! ## Texts -/

theorem parse_of_length_lt (h : limits.maxLength < (Text.normalize s.toList).length) :
    parse limits s = .error (.tooLong (Text.normalize s.toList).length limits.maxLength) := by
  rw [parse, parseNormal, if_pos h]

theorem parse_of_length_le (limits : Limits)
    (h : (Text.normalize s.toList).length ≤ limits.maxLength) :
    parse limits s = Expr.ofTokens limits.maxDepth (Text.byteLength (Text.normalize s.toList))
      (tokenize (Text.normalize s.toList)) := by
  rw [parse, parseNormal, if_neg (Nat.not_lt.2 h)]

theorem length_le_of_parse (h : parse limits s = .ok e) :
    (Text.normalize s.toList).length ≤ limits.maxLength := by
  refine Nat.not_lt.1 fun hlong => ?_
  rw [parse_of_length_lt hlong] at h
  cases h

theorem nesting_le_of_parse (h : parse limits s = .ok e) {read : List Token}
    (hread : read <+: tokenize (Text.normalize s.toList)) : nesting read ≤ limits.maxDepth := by
  rw [parse_of_length_le limits (length_le_of_parse h)] at h
  exact nesting_le_of_ofTokens h hread

/-- A text that is not too long is read as if its depth had no limit, unless the tokens that are
read then exceed it. -/
theorem parse_of_depth (h : (Text.normalize s.toList).length ≤ limits.maxLength)
    (hdepth : (Text.normalize s.toList).length ≤ depth) :
    (Overruns limits.maxDepth (tokensBefore (tokenize (Text.normalize s.toList))
        (parse { limits with maxDepth := depth } s)) →
      parse limits s = .error (.tooDeep limits.maxDepth)) ∧
    (¬ Overruns limits.maxDepth (tokensBefore (tokenize (Text.normalize s.toList))
        (parse { limits with maxDepth := depth } s)) →
      parse limits s = parse { limits with maxDepth := depth } s) := by
  have horder := pairwise_position_tokenize (Text.normalize s.toList)
  have htokens := Nat.le_trans (length_tokenize_le (Text.normalize s.toList)) hdepth
  rw [parse_of_length_le limits h, parse_of_length_le { limits with maxDepth := depth } h]
  exact ⟨ofTokens_eq_tooDeep horder htokens, ofTokens_eq_of_not_overruns horder htokens⟩

theorem exists_run_length_levels (h : (Text.normalize s.toList).length ≤ limits.maxLength)
    (hdepth : (Text.normalize s.toList).length ≤ depth) {read : List Token}
    (hread : read <+: tokensBefore (tokenize (Text.normalize s.toList))
      (parse { limits with maxDepth := depth } s)) :
    ∃ r, start.run depth read = .ok r ∧ (r.levels.length : Int) = nesting read := by
  have horder := pairwise_position_tokenize (Text.normalize s.toList)
  have htokens := Nat.le_trans (length_tokenize_le (Text.normalize s.toList)) hdepth
  rw [parse_of_length_le { limits with maxDepth := depth } h] at hread
  obtain ⟨r, hsteps, -⟩ :=
    exists_steps_tokensBefore (Text.byteLength (Text.normalize s.toList)) horder htokens
  have hlength := (hread.trans (tokensBefore_isPrefix _ _)).length_le
  obtain ⟨more, hmore⟩ := hread
  rw [← hmore] at hsteps
  obtain ⟨u, hu, -⟩ := hsteps.of_append
  refine ⟨u, hu.run_eq ?_, by simpa [start] using hu.length_levels_eq⟩
  simp only [start, List.length_nil]
  omega

theorem parse_eq_of_le (hlength : limits.maxLength ≤ limits'.maxLength)
    (hdepth : limits.maxDepth ≤ limits'.maxDepth)
    (hlong : ∀ length, parse limits s ≠ .error (.tooLong length limits.maxLength))
    (hdeep : parse limits s ≠ .error (.tooDeep limits.maxDepth)) :
    parse limits' s = parse limits s := by
  have hfits : (Text.normalize s.toList).length ≤ limits.maxLength :=
    Nat.not_lt.1 fun hlt => hlong _ (parse_of_length_lt hlt)
  have hfits' := Nat.le_trans hfits hlength
  -- Without a limit to the depth both readings are the same.
  have hfree : parse { limits' with maxDepth := (Text.normalize s.toList).length } s =
      parse { limits with maxDepth := (Text.normalize s.toList).length } s := by
    rw [parse_of_length_le { limits' with maxDepth := (Text.normalize s.toList).length } hfits',
      parse_of_length_le { limits with maxDepth := (Text.normalize s.toList).length } hfits]
  obtain ⟨hover, hunder⟩ := parse_of_depth hfits (Nat.le_refl _)
  obtain ⟨-, hunder'⟩ := parse_of_depth hfits' (Nat.le_refl _)
  have hnot : ¬ Overruns limits.maxDepth (tokensBefore (tokenize (Text.normalize s.toList))
      (parse { limits with maxDepth := (Text.normalize s.toList).length } s)) :=
    fun h => hdeep (hover h)
  rw [hunder hnot, ← hfree]
  refine hunder' fun h => hnot ?_
  rw [← hfree]
  exact h.of_le hdepth

/-- The limits refuse what exceeds them and change nothing else.

- A text that is too long is refused for its length.
- Any other text is read as if its depth had no limit, and refused for its depth exactly if more
  parentheses than allowed are open after some of the tokens in front of the one that the result
  names. The depth is the number of open parentheses, hence never negative, and a group or call that
  has been closed does not count.
- A result that is not about a limit stays as it is when limits are raised. -/
theorem parse_within_limits (limits : Limits) (s : String) :
    (limits.maxLength < (Text.normalize s.toList).length →
      parse limits s = .error (.tooLong (Text.normalize s.toList).length limits.maxLength) ∧
      evaluate limits s = .error (.tooLong (Text.normalize s.toList).length limits.maxLength)) ∧
    ((Text.normalize s.toList).length ≤ limits.maxLength →
      ∀ depth free before, (Text.normalize s.toList).length ≤ depth →
        parse { limits with maxDepth := depth } s = free →
        tokensBefore (tokenize (Text.normalize s.toList)) free = before →
        (Overruns limits.maxDepth before →
          parse limits s = .error (.tooDeep limits.maxDepth) ∧
          evaluate limits s = .error (.tooDeep limits.maxDepth)) ∧
        (¬ Overruns limits.maxDepth before →
          parse limits s = free ∧ evaluate limits s = free.bind Expr.evaluate) ∧
        ∀ read, read <+: before →
          ∃ r, start.run depth read = .ok r ∧ (r.levels.length : Int) = nesting read) ∧
    (∀ limits' : Limits,
      limits.maxLength ≤ limits'.maxLength → limits.maxDepth ≤ limits'.maxDepth →
      (∀ length, parse limits s ≠ .error (.tooLong length limits.maxLength)) →
      parse limits s ≠ .error (.tooDeep limits.maxDepth) →
      parse limits' s = parse limits s ∧ evaluate limits' s = evaluate limits s) := by
  refine ⟨fun h => ?_, fun h depth free before hdepth hfree hbefore => ?_,
    fun limits' hlength hdepth hlong hdeep => ?_⟩
  · have hparse := parse_of_length_lt h
    exact ⟨hparse, by rw [evaluate, hparse]; rfl⟩
  · subst hfree hbefore
    obtain ⟨hover, hunder⟩ := parse_of_depth h hdepth
    refine ⟨fun hb => ?_, fun hb => ?_, fun read => exists_run_length_levels h hdepth⟩
    · exact ⟨hover hb, by rw [evaluate, hover hb]; rfl⟩
    · exact ⟨hunder hb, by rw [evaluate, hunder hb]⟩
  · have hparse := parse_eq_of_le hlength hdepth hlong hdeep
    exact ⟨hparse, by rw [evaluate, evaluate, hparse]⟩

/-- With a depth of one, the parentheses of `(1)*((2))` are too many, while `(1)((2))` is refused
before they count, at any depth. For a limit of seven its eight characters are too many. -/
theorem parse_within_limits_nested :
    parse ⟨7, 1⟩ "(1)((2))" = .error (.tooLong 8 7) ∧
      evaluate ⟨10, 1⟩ "(1)*((2))" = .error (.tooDeep 1) ∧
      parse ⟨10, 1⟩ "(1)((2))" = .error (.invalidExpression 3 (.token ['(']) .operator) ∧
      parse ⟨20, 5⟩ "(1)((2))" = parse ⟨10, 1⟩ "(1)((2))" := by
  have hread : parse ⟨10, 9⟩ "(1)((2))" =
      .error (.invalidExpression 3 (.token ['(']) .operator) := by decide +kernel
  obtain ⟨hlong, -, -⟩ := parse_within_limits ⟨7, 1⟩ "(1)((2))"
  obtain ⟨-, hnested, -⟩ := parse_within_limits ⟨10, 1⟩ "(1)*((2))"
  obtain ⟨-, hrefused, hraised⟩ := parse_within_limits ⟨10, 1⟩ "(1)((2))"
  obtain ⟨hdeep, -, -⟩ := hnested (by decide) 9 _ _ (by decide) rfl rfl
  obtain ⟨-, hkept, -⟩ := hrefused (by decide) 9 _ _ (by decide) hread rfl
  obtain ⟨hparse, -⟩ := hkept (by decide +kernel)
  refine ⟨(hlong (by decide)).1, (hdeep (by decide +kernel)).2, hparse, ?_⟩
  refine (hraised ⟨20, 5⟩ (by decide) (by decide) (fun length => ?_) ?_).1
  · rw [hparse]
    exact nofun
  · rw [hparse]
    exact nofun

end DeskCalculator
