import DeskCalculator.Proofs.Reading.Acceptance

/-!
# Where a text is refused

**Theorem (`parse_eq_error_refusedAt`).** With limits that no text of this length can exceed, a text
that is no expression is refused at the first token that no expression has there, or at its end when
only more tokens are missing.

The tokens before that place can always be continued. Whatever has been read, some text completes
it: an operand if one is missing, then a closing parenthesis for each open level (`completion`,
`steps_completion`). The refused token cannot follow them, because an expression that begins with
them would have been read beyond it (`Accepted.exists_step`).
-/

namespace DeskCalculator

/-! ## Completions -/

namespace Reading

/-- Closing parentheses for the open levels. -/
def closings (levels : List Level) : List Char := List.replicate levels.length ')'

/-- A text that completes the reading. -/
def completion (r : Reading) : List Char :=
  match r.next with
  | .operand _ | .signed _ => '0' :: closings r.levels
  | .argument _ _ _ => '(' :: '0' :: ')' :: closings r.levels
  | .operator _ => closings r.levels

/-! ## The tokens of a completion -/

theorem lexemes_opening (s : List Char) : lexemes ('(' :: s) = ['('] :: lexemes s :=
  lexemes_cons_mark (by decide) (by decide) s

theorem lexemes_closing (s : List Char) : lexemes (')' :: s) = [')'] :: lexemes s :=
  lexemes_cons_mark (by decide) (by decide) s

theorem lexemes_zero_closing (s : List Char) :
    lexemes ('0' :: ')' :: s) = ['0'] :: lexemes (')' :: s) := by
  rw [lexemes_cons]
  rfl

theorem lexemes_zero (levels : List Level) :
    lexemes ('0' :: closings levels) = ['0'] :: lexemes (closings levels) := by
  cases levels with
  | nil =>
    rw [lexemes_cons]
    rfl
  | cons level levels => exact lexemes_zero_closing (closings levels)

theorem exists_kind_zero (position : Nat) :
    ∃ x, (Token.ofText position ['0']).kind = .number x := ⟨_, rfl⟩

/-! ## Their steps -/

/-- Closing parentheses lead out of all levels. -/
theorem steps_closings (levels : List Level) (waiting : List Waiting) (e : Expr) (place : Nat) :
    ∃ waiting' e', Steps ⟨levels, waiting, .operator e⟩
      (Token.inOrder place (lexemes (closings levels))) ⟨[], waiting', .operator e'⟩ := by
  induction levels generalizing waiting e place with
  | nil => exact ⟨waiting, e, by simpa [closings] using Steps.nil⟩
  | cons level levels ih =>
    obtain ⟨waiting', e', hsteps⟩ := ih level.waiting
      (level.opener.close (Waiting.settleAll waiting e)) (place + Text.byteLength [')'])
    have hlexemes : lexemes (closings (level :: levels)) = [')'] :: lexemes (closings levels) :=
      lexemes_closing (closings levels)
    rw [hlexemes, Token.inOrder_cons]
    exact ⟨waiting', e', .cons (.close rfl) hsteps⟩

theorem steps_zero (levels : List Level) (waiting : List Waiting) (b : Bool) (place : Nat) :
    ∃ waiting' e', Steps ⟨levels, waiting, .operand b⟩
      (Token.inOrder place (lexemes ('0' :: closings levels))) ⟨[], waiting', .operator e'⟩ := by
  rw [lexemes_zero, Token.inOrder_cons]
  obtain ⟨x, hx⟩ := exists_kind_zero place
  obtain ⟨waiting', e', hsteps⟩ := steps_closings levels waiting (.literal x) _
  exact ⟨waiting', e', .cons (.number hx) hsteps⟩

/-- A reading is completed by the tokens of its completion. -/
theorem steps_completion (r : Reading) (place : Nat) :
    ∃ waiting e, Steps r (Token.inOrder place (lexemes r.completion))
      ⟨[], waiting, .operator e⟩ := by
  obtain ⟨levels, waiting, next⟩ := r
  cases next with
  | operand b => exact steps_zero levels waiting b place
  | signed negative =>
    simp only [completion, lexemes_zero, Token.inOrder_cons]
    obtain ⟨x, hx⟩ := exists_kind_zero place
    obtain ⟨waiting', e', hsteps⟩ := steps_closings levels waiting _ _
    exact ⟨waiting', e', .cons (.signedNumber hx) hsteps⟩
  | argument f unsignedAt negated =>
    -- The parenthesis opens one more level, which the text closes with the others.
    obtain ⟨waiting', e', hsteps⟩ :=
      steps_zero (⟨.call f unsignedAt negated, waiting⟩ :: levels) [] true _
    simp only [completion, lexemes_opening, Token.inOrder_cons]
    exact ⟨waiting', e', .cons (.argument rfl) hsteps⟩
  | operator e => exact steps_closings levels waiting e place

end Reading

/-! ## The place of a refusal -/

/-- The tokens make up an expression. -/
def Accepted (tokens : List Token) : Prop := ∃ e, Derives .sum true tokens e

/-- Some text, written behind the tokens, completes them to an expression. -/
def Continuable (tokens : List Token) : Prop :=
  ∃ more : List Char,
    Accepted (tokens ++
      Token.inOrder (Text.byteLength (tokens.map Token.text).flatten) (lexemes more))

/-- `RefusedAt s place found`: the text `s` stops being the beginning of an expression at the byte
`place`, where `found` stands. -/
inductive RefusedAt (s : List Char) : Nat → Found → Prop where
  | atEnd : ¬ Accepted (tokenize s) → Continuable (tokenize s) →
      RefusedAt s (Text.byteLength s) .endOfInput
  | atToken {before t after} : tokenize s = before ++ t :: after →
      t.position = Text.byteLength (before.map Token.text).flatten →
      Continuable before → (∀ more, ¬ Accepted (before ++ t :: more)) →
      RefusedAt s t.position (.token t.text)

open Reading

variable {limits : Limits} {maxDepth place : Nat} {before tokens more : List Token} {t : Token}
  {failure : Failure} {s : String}

/-! ## What has been read can be continued -/

theorem continuable_of_steps {r : Reading} (h : Steps start tokens r) : Continuable tokens := by
  obtain ⟨waiting, e, hsteps⟩ :=
    steps_completion r (Text.byteLength (tokens.map Token.text).flatten)
  have hspells := Spells.start.of_steps (h.append hsteps)
  exact ⟨r.completion, _, hspells.derives 0 rfl⟩

/-! ## What is refused cannot follow -/

namespace Reading

theorem Steps.of_append {r s : Reading} (h : Steps r (before ++ more) s) :
    ∃ u, Steps r before u ∧ Steps u more s := by
  induction before generalizing r with
  | nil => exact ⟨r, .nil, h⟩
  | cons t before ih =>
    cases h with
    | cons ht h =>
      obtain ⟨u, hu, hs⟩ := ih h
      exact ⟨u, .cons ht hu, hs⟩

theorem Steps.unique {r s s' : Reading} (h : Steps r tokens s) (h' : Steps r tokens s') :
    s = s' := by
  have hrun := h.run_eq (Nat.le_refl _)
  rw [h'.run_eq (Nat.le_refl _)] at hrun
  cases hrun
  rfl

theorem Steps.of_step {r s u : Reading} (h : Steps r (t :: tokens) u) (ht : Step r t s) :
    Steps s tokens u := by
  cases h with
  | cons ht' h =>
    cases ht.steps.unique ht'.steps
    exact h

theorem Steps.exists_last {r s : Reading} (h : Steps r (before ++ [t]) s) :
    ∃ u, Steps r before u ∧ Step u t s := by
  obtain ⟨u, hu, hlast⟩ := h.of_append
  cases hlast with
  | cons ht hnil =>
    cases hnil
    exact ⟨u, hu, ht⟩

theorem Steps.length_levels_le {r s : Reading} (h : Steps r tokens s) :
    s.levels.length ≤ r.levels.length + tokens.length := by
  induction h with
  | nil => exact Nat.le_refl _
  | cons ht _ ih =>
    have hle := ht.length_levels_le
    rw [List.length_cons]
    omega

/-- A failing run reads some of the tokens and then fails at the next one. -/
theorem run_eq_error {r : Reading} (h : r.run maxDepth tokens = .error failure) :
    ∃ before t after u, tokens = before ++ t :: after ∧ r.run maxDepth before = .ok u ∧
      u.step maxDepth t = .error failure := by
  induction tokens generalizing r with
  | nil => cases h
  | cons t tokens ih =>
    rw [run_cons] at h
    cases ht : r.step maxDepth t with
    | error failure' =>
      rw [ht] at h
      cases h
      exact ⟨[], t, tokens, r, rfl, rfl, ht⟩
    | ok s =>
      rw [ht] at h
      obtain ⟨before, t', after, u, rfl, hu, ht'⟩ := ih h
      exact ⟨t :: before, t', after, u, rfl, by rw [run_cons, ht]; exact hu, ht'⟩

/-- With room for every token, a run from the start fails at a token that is refused for itself. -/
theorem run_start_eq_error (h : start.run maxDepth tokens = .error failure)
    (hdepth : tokens.length ≤ maxDepth) :
    ∃ before t after r expected, tokens = before ++ t :: after ∧ start.run maxDepth before = .ok r ∧
      r.levels.length < maxDepth ∧ r.step maxDepth t = .error failure ∧
      failure = .invalidExpression t.position (.token t.text) expected := by
  obtain ⟨before, t, after, r, rfl, hbefore, ht⟩ := run_eq_error h
  -- The tokens before this one cannot have opened as many levels as there are tokens.
  have hroom : r.levels.length < maxDepth := by
    have hlevels := (Steps.of_run hbefore).length_levels_le
    rw [List.length_append, List.length_cons] at hdepth
    simp only [start, List.length_nil] at hlevels
    omega
  rcases step_eq_error ht with ⟨-, hfull⟩ | ⟨expected, hfailure⟩
  · exact absurd hroom (Nat.not_lt.2 hfull)
  · exact ⟨before, t, after, r, expected, rfl, hbefore, hroom, ht, hfailure⟩

theorem finish_eq_error {r : Reading} (h : r.finish place = .error failure) :
    ∃ expected, failure = .invalidExpression place .endOfInput expected := by
  unfold finish at h
  split at h <;> cases h <;> exact ⟨_, rfl⟩

end Reading

/-- Each token of an expression leads from what was read before it to something else. -/
theorem Accepted.exists_step {r : Reading} (h : Accepted (before ++ t :: more))
    (hr : Steps start before r) : ∃ u, Step r t u := by
  obtain ⟨e, he⟩ := h
  obtain ⟨_, _, hsteps, _⟩ := he.reads.settleAll []
  obtain ⟨r', hr', hrest⟩ := hsteps.of_append
  cases hr'.unique hr
  cases hrest with
  | cons ht _ => exact ⟨_, ht⟩

/-! ## Texts -/

/-- A text that is no expression is refused at the first token that no expression has there, or at
its end. There is no other failure. -/
theorem parse_eq_error_refusedAt (h : limits.Ample (Text.normalize s.toList))
    (hfailure : parse limits s = .error failure) :
    ∃ place found expected, failure = .invalidExpression place found expected ∧
      RefusedAt (Text.normalize s.toList) place found := by
  have hdepth : (tokenize (Text.normalize s.toList)).length ≤ limits.maxDepth :=
    Nat.le_trans (length_tokenize_le _) h.depth
  have hread := parse_of_ample h
  rw [hfailure] at hread
  rcases Expr.ofTokens_eq_error_iff_run.1 hread.symm with hrun | ⟨r, hrun, hfinish⟩
  · obtain ⟨before, t, after, r, expected, heq, hbefore, hroom, ht, rfl⟩ :=
      run_start_eq_error hrun hdepth
    have hsteps := Steps.of_run hbefore
    refine ⟨_, _, expected, rfl, .atToken heq (position_of_tokenize_eq heq)
      (continuable_of_steps hsteps) fun more haccepted => ?_⟩
    obtain ⟨u, hu⟩ := haccepted.exists_step hsteps
    rw [hu.step_eq fun _ => hroom] at ht
    cases ht
  · obtain ⟨expected, rfl⟩ := finish_eq_error hfinish
    refine ⟨_, _, expected, rfl, .atEnd ?_ (continuable_of_steps (Steps.of_run hrun))⟩
    rintro ⟨e, he⟩
    rw [he.parse_eq h] at hfailure
    cases hfailure

/-- In `sin(2*)` the parenthesis at byte 6 is refused: everything before it can be continued. -/
theorem refusedAt_closing_after_operator :
    ({} : Limits).Ample (Text.normalize "Sin( 2 * )".toList) ∧
      parse {} "Sin( 2 * )" = .error (.invalidExpression 6 (.token [')']) .operand) ∧
      RefusedAt (Text.normalize "Sin( 2 * )".toList) 6 (.token [')']) := by
  have hample : ({} : Limits).Ample (Text.normalize "Sin( 2 * )".toList) :=
    ⟨by decide +kernel, by decide +kernel⟩
  have hread : parse {} "Sin( 2 * )" = .error (.invalidExpression 6 (.token [')']) .operand) := by
    decide +kernel
  obtain ⟨_, _, _, heq, hrefused⟩ := parse_eq_error_refusedAt hample hread
  cases heq
  exact ⟨hample, hread, hrefused⟩

end DeskCalculator
