import DeskCalculator.Proofs.Reading.Splits
import DeskCalculator.Proofs.Token.Shapes

/-!
# Reading the text of an expression

**Theorem (`parse_display`).** The text of an expression is read as the same expression but for the
marks of its calls, unless a sign would follow an operator other than `+`. Such a text is no
expression.

Every operation is written in parentheses, so the text of an expression is an operand
(`Writable.exists_derives`). Only a sign in front depends on the place: where it is not allowed, the
tokens are not read at all (`Writable.not_steps`).
-/

namespace DeskCalculator

namespace Expr

/-- The text of the expression starts with a minus. -/
def isSigned : Expr → Bool
  | literal x => (Decimal.plainChars x).head? = some '-'
  | binary _ _ _ | call _ _ _ => false
  | negation _ => true

/-- The expressions that can be written: every literal is finite and reads back from its text, and
only calls are negated. -/
inductive Writable : Expr → Prop where
  | literal {x} : x.isFinite → Decimal.floatOfChars? (Decimal.plainChars x) = some x →
      Writable (literal x)
  | binary {op l r} : Writable l → Writable r → Writable (binary op l r)
  | call {f a u} : Writable a → Writable (call f a u)
  | negatedCall {f a u} : Writable a → Writable (negation (call f a u))

/-! ## The lexemes of a text -/

/-- The lexemes of the text of an expression. -/
def displayLexemes (e : Expr) : List (List Char) := lexemes (Text.normalize e.display)

theorem displayLexemes_literal {x : Float} {negative : Bool} {text : List Char}
    (h : Decimal.Numeral x negative text) :
    (literal x).displayLexemes = if negative then [['-'], text] else [text] := by
  rw [displayLexemes, display_literal, h.normalize_plainChars, h.lexemes_plainChars]

theorem displayLexemes_binary (op : Operator) (l r : Expr) :
    (binary op l r).displayLexemes =
      ['('] :: (l.displayLexemes ++ [op.symbol] :: (r.displayLexemes ++ [[')']])) := by
  have hnormal : Text.normalize (binary op l r).display =
      '(' :: (Text.normalize l.display ++ op.symbol :: (Text.normalize r.display ++ [')'])) := by
    rw [display_binary, Text.normalize_cons_of_isPlain (by decide), Text.normalize_append,
      Text.normalize_cons ' ', Text.normalize_cons_of_isPlain (Text.isPlain_symbol op),
      Text.normalize_cons ' ', Text.normalize_append]
    rfl
  rw [displayLexemes, hnormal, ← List.nil_append ('(' :: _), lexemes_append_mark _ _ (by decide),
    lexemes_append_mark _ _ (Lexeme.joins_symbol op), lexemes_append_mark _ _ (by decide),
    lexemes_nil]
  rfl

theorem displayLexemes_call (f : Function) (a : Expr) (u : Option Nat) :
    (call f a u).displayLexemes = f.name.toList :: ['('] :: (a.displayLexemes ++ [[')']]) := by
  have hnormal : Text.normalize (call f a u).display =
      f.name.toList ++ '(' :: (Text.normalize a.display ++ [')']) := by
    rw [display_call, Text.normalize_append,
      Text.normalize_eq_self fun _ => Text.isPlain_of_mem_name,
      Text.normalize_cons_of_isPlain (by decide), Text.normalize_append]
    rfl
  rw [displayLexemes, hnormal, lexemes_append_mark _ _ (by decide), Lexeme.lexemes_name,
    lexemes_append_mark _ _ (by decide), lexemes_nil]
  rfl

theorem displayLexemes_negation (o : Expr) :
    (negation o).displayLexemes = ['-'] :: o.displayLexemes := by
  rw [displayLexemes, display_negation, Text.normalize_cons_of_isPlain (by decide)]
  exact lexemes_cons_mark (by decide) (by decide) _

/-! ## The tokens of a text -/

/-- The tokens of the text of an expression, from a place on. -/
def displayTokens (place : Nat) (e : Expr) : List Token := Token.inOrder place e.displayLexemes

theorem displayTokens_binary (place : Nat) (op : Operator) (l r : Expr) :
    ∃ p q p' q', (binary op l r).displayTokens place =
      .ofText place ['('] :: ((l.displayTokens p ++ .ofText q [op.symbol] :: r.displayTokens p') ++
        [.ofText q' [')']]) := by
  simp only [displayTokens, displayLexemes_binary, Token.inOrder_cons, Token.inOrder_append,
    Token.inOrder_nil, List.append_assoc, List.cons_append]
  exact ⟨_, _, _, _, rfl⟩

theorem displayTokens_call (place : Nat) (f : Function) (a : Expr) (u : Option Nat) :
    ∃ p q q', (call f a u).displayTokens place =
      .ofText place f.name.toList :: .ofText p ['('] ::
        (a.displayTokens q ++ [.ofText q' [')']]) := by
  simp only [displayTokens, displayLexemes_call, Token.inOrder_cons, Token.inOrder_append,
    Token.inOrder_nil]
  exact ⟨_, _, _, rfl⟩

theorem displayTokens_negation (place : Nat) (o : Expr) :
    ∃ p, (negation o).displayTokens place = .ofText place ['-'] :: o.displayTokens p := by
  rw [displayTokens, displayLexemes_negation, Token.inOrder_cons]
  exact ⟨_, rfl⟩

end Expr

/-! ## Where signs fit -/

open Reading

namespace Expr

variable {e : Expr}

/-- The text of an expression is an operand that stands for the expression, if every right operand
with a sign belongs to a `+`. In front of the whole a sign must be allowed. -/
theorem Writable.exists_derives (h : e.Writable)
    (hfits : ∀ op l r, (Expr.binary op l r).Within e → r.isSigned → op = .add) {b : Bool}
    (hb : e.isSigned → b = true) (place : Nat) :
    ∃ e', Derives .operand b (e.displayTokens place) e' ∧ e'.unmarked = e.unmarked := by
  induction h generalizing b place with
  | @literal x hfinite hreads =>
    obtain ⟨text, hx⟩ := Decimal.exists_numeral hfinite hreads
    obtain ⟨y, hkind, hvalue⟩ := hx.kind
    rw [displayTokens, displayLexemes_literal hx]
    cases hsign : Binary64.isNegative x with
    | false =>
      rw [hsign] at hvalue
      obtain rfl : x = y := hvalue
      exact ⟨_, .number hkind, rfl⟩
    | true =>
      rw [hsign] at hvalue
      obtain rfl : x = -y := hvalue
      obtain rfl := hb (by simp [isSigned, hx.chars_eq, hsign, Decimal.withSign])
      exact ⟨_, @Derives.signedNumber .minus _ _ _ rfl hkind, rfl⟩
  | @binary op l r _ _ ihl ihr =>
    obtain ⟨p, q, p', q', htokens⟩ := displayTokens_binary place op l r
    obtain ⟨l', hl, hlmarks⟩ :=
      ihl (fun _ _ _ hw => hfits _ _ _ (.left hw)) (fun _ => rfl) p
    obtain ⟨r', hr, hrmarks⟩ :=
      ihr (fun _ _ _ hw => hfits _ _ _ (.right hw))
        (fun hsigned => decide_eq_true (hfits op l r .refl hsigned)) p'
    have hop := (hl.of_operand op.tier.phrase).binary (Token.kind_symbol q op) (hr.of_operand _)
    rw [htokens]
    refine ⟨_, .group rfl (hop.loosen (Nat.zero_le _)) rfl, ?_⟩
    rw [unmarked, unmarked, hlmarks, hrmarks]
  | @call f a u _ ih =>
    obtain ⟨p, q, q', htokens⟩ := displayTokens_call place f a u
    obtain ⟨a', ha, hmarks⟩ := ih (fun _ _ _ hw => hfits _ _ _ (.argument hw)) (fun _ => rfl) q
    rw [htokens]
    refine ⟨_, .call (Token.kind_name place f) (Function.ofName?_name f) rfl
      (ha.of_operand .sum) rfl, ?_⟩
    rw [unmarked, unmarked, hmarks]
  | @negatedCall f a u _ ih =>
    obtain rfl := hb rfl
    obtain ⟨p₀, hsign⟩ := displayTokens_negation place (Expr.call f a u)
    obtain ⟨p, q, q', htokens⟩ := displayTokens_call p₀ f a u
    obtain ⟨a', ha, hmarks⟩ :=
      ih (fun _ _ _ hw => hfits _ _ _ (.operand (.argument hw))) (fun _ => rfl) q
    rw [hsign, htokens]
    refine ⟨_, @Derives.signedCall .minus _ _ _ _ _ _ _ rfl (Token.kind_name p₀ f)
      (Function.ofName?_name f) rfl (ha.of_operand .sum) rfl, ?_⟩
    simp only [Sign.applyToCall, unmarked, hmarks]

/-- A text that starts with a minus is not read where no sign is allowed. -/
theorem Writable.not_steps_of_isSigned (h : e.Writable) (hsigned : e.isSigned)
    (levels : List Level) (waiting : List Waiting) (place : Nat) (s : Reading) :
    ¬ Steps ⟨levels, waiting, .operand false⟩ (e.displayTokens place) s := by
  have hminus : ∃ rest, e.displayTokens place = .ofText place ['-'] :: rest := by
    cases h with
    | @literal x hfinite hreads =>
      obtain ⟨text, hx⟩ := Decimal.exists_numeral hfinite hreads
      rw [displayTokens, displayLexemes_literal hx]
      cases hneg : Binary64.isNegative x with
      | true => exact ⟨_, rfl⟩
      | false =>
        -- A numeral does not start with a minus.
        have hhead : text.head? = some '-' := by
          simpa [isSigned, hx.chars_eq, hneg, Decimal.withSign] using hsigned
        have hnumeral := hx.isNumeral '-' (List.mem_of_mem_head? hhead)
        simp [Lexeme.isNumeral] at hnumeral
    | binary | call => cases hsigned
    | negatedCall =>
      obtain ⟨p, htokens⟩ := displayTokens_negation place (Expr.call _ _ _)
      exact ⟨_, htokens⟩
  obtain ⟨rest, hrest⟩ := hminus
  rw [hrest]
  exact not_steps_of_unsigned (.inl rfl) (Token.kind_symbol place .subtract)

theorem Writable.not_steps (h : e.Writable)
    (hbad : ∃ op l r, (Expr.binary op l r).Within e ∧ r.isSigned ∧ op ≠ .add) (b : Bool)
    (levels : List Level) (waiting : List Waiting) (place : Nat) (s : Reading) :
    ¬ Steps ⟨levels, waiting, .operand b⟩ (e.displayTokens place) s := by
  -- The induction follows the way to the operation whose right operand has the sign. Whatever
  -- stands in front of it on the way can be read.
  intro hs
  induction h generalizing b levels waiting place s with
  | @literal x hfinite hreads =>
    obtain ⟨op, l, r, hw, -⟩ := hbad
    cases hw
  | @binary op l r hl hr ihl ihr =>
    obtain ⟨p, q, p', q', htokens⟩ := displayTokens_binary place op l r
    rw [htokens] at hs
    obtain ⟨u, hu, -⟩ := (hs.of_step (.group rfl)).of_append
    obtain ⟨v, hleft, hrest⟩ := hu.of_append
    by_cases hlbad : ∃ op' l' r', (Expr.binary op' l' r').Within l ∧ r'.isSigned ∧ op' ≠ .add
    · exact ihl hlbad _ _ _ _ _ hleft
    · -- The left operand is read, and then the operator.
      obtain ⟨l', hl', -⟩ := hl.exists_derives (fun op' _ _ hw hsigned =>
        Decidable.byContradiction fun hne => hlbad ⟨op', _, _, hw, hsigned, hne⟩)
        (fun _ => rfl) p
      obtain ⟨waiting', e', hsteps, -⟩ := hl'.reads (⟨.group, waiting⟩ :: levels) [] (by simp)
      obtain rfl := hleft.unique hsteps
      have hright := hrest.of_step (.operator (Token.kind_symbol q op))
      obtain ⟨op', l', r', hw, hsigned, hne⟩ := hbad
      cases hw with
      | refl =>
        rw [decide_eq_false hne] at hright
        exact hr.not_steps_of_isSigned hsigned _ _ _ _ hright
      | left hw => exact hlbad ⟨op', l', r', hw, hsigned, hne⟩
      | right hw => exact ihr ⟨op', l', r', hw, hsigned, hne⟩ _ _ _ _ _ hright
  | @call f a u _ ih =>
    obtain ⟨p, q, q', htokens⟩ := displayTokens_call place f a u
    rw [htokens] at hs
    have hinside := (hs.of_step (.name (Token.kind_name place f) (Function.ofName?_name f))).of_step
      (.argument rfl)
    obtain ⟨v, hargument, -⟩ := hinside.of_append
    obtain ⟨op', l', r', hw, hrest⟩ := hbad
    cases hw with
    | argument hw => exact ih ⟨op', l', r', hw, hrest⟩ _ _ _ _ _ hargument
  | @negatedCall f a u ha ih =>
    obtain ⟨p₀, hsign⟩ := displayTokens_negation place (Expr.call f a u)
    obtain ⟨p, q, q', htokens⟩ := displayTokens_call p₀ f a u
    cases b with
    | false => exact (Writable.negatedCall ha).not_steps_of_isSigned rfl _ _ _ _ hs
    | true =>
      rw [hsign, htokens] at hs
      have hinside := ((hs.of_step (@Step.sign _ _ _ .minus rfl)).of_step
        (.signedName (Token.kind_name p₀ f) (Function.ofName?_name f))).of_step (.argument rfl)
      obtain ⟨v, hargument, -⟩ := hinside.of_append
      obtain ⟨op', l', r', hw, hrest⟩ := hbad
      cases hw with
      | operand hw =>
        cases hw with
        | argument hw => exact ih ⟨op', l', r', hw, hrest⟩ _ _ _ _ _ hargument

end Expr

/-! ## Texts -/

variable {limits : Limits} {s : String} {failure : Failure} {e : Expr}

/-- With ample limits every failure is about a token or the end of the text. -/
theorem exists_invalidExpression (h : limits.Ample (Text.normalize s.toList))
    (hfailure : parse limits s = .error failure) :
    ∃ place found expected, failure = .invalidExpression place found expected := by
  have hdepth := Nat.le_trans (length_tokenize_le (Text.normalize s.toList)) h.depth
  rw [parse_of_ample h] at hfailure
  rcases Expr.ofTokens_eq_error_iff_run.1 hfailure with hrun | ⟨r, -, hfinish⟩
  · obtain ⟨before, t, after, r, expected, -, -, -, -, rfl⟩ := run_start_eq_error hrun hdepth
    exact ⟨_, _, expected, rfl⟩
  · obtain ⟨expected, rfl⟩ := finish_eq_error hfinish
    exact ⟨_, _, expected, rfl⟩

/-- The text of an expression is read as that expression, but for the marks of the calls. If a right
operand starts with a minus and its operator is not `+`, the text is no expression. -/
theorem parse_display (h : e.Writable) (hlimits : limits.Ample (Text.normalize e.display)) :
    ((∀ op l r, (Expr.binary op l r).Within e → r.isSigned → op = .add) →
      ∃ e', parse limits (String.ofList e.display) = .ok e' ∧ e'.unmarked = e.unmarked) ∧
    ((∃ op l r, (Expr.binary op l r).Within e ∧ r.isSigned ∧ op ≠ .add) →
      ∃ place found expected, parse limits (String.ofList e.display) =
        .error (.invalidExpression place found expected)) := by
  have hample : limits.Ample (Text.normalize (String.ofList e.display).toList) := by
    simpa using hlimits
  have htokens : tokenize (Text.normalize (String.ofList e.display).toList) =
      e.displayTokens 0 := by
    rw [String.toList_ofList]
    rfl
  refine ⟨fun hfits => ?_, fun hbad => ?_⟩
  · obtain ⟨e', he, hmarks⟩ := h.exists_derives hfits (fun _ => rfl) 0
    have hsum := he.of_operand .sum
    rw [← htokens] at hsum
    exact ⟨e', hsum.parse_eq hample, hmarks⟩
  · cases hparse : parse limits (String.ofList e.display) with
    | error failure =>
      obtain ⟨place, found, expected, rfl⟩ := exists_invalidExpression hample hparse
      exact ⟨place, found, expected, rfl⟩
    | ok e' =>
      have hsum := Derives.of_parse hparse
      rw [htokens] at hsum
      obtain ⟨waiting, e₀, hsteps, -⟩ := hsum.reads [] [] (by simp)
      exact absurd hsteps (h.not_steps hbad true [] [] 0 _)

/-- The text `(-sin(-0.5) * (1 + -2))` is read back, though marked at its call. In
`(1 - -cos(0))` a sign follows a minus. -/
theorem parse_display_signs :
    ((Expr.binary .multiply (.negation (.call .sin (.literal (-0.5)) none))
          (.binary .add (.literal 1) (.literal (-2)))).Writable ∧
        ∃ e', parse {} (String.ofList (Expr.binary .multiply
            (.negation (.call .sin (.literal (-0.5)) none))
            (.binary .add (.literal 1) (.literal (-2)))).display) = .ok e' ∧
          e'.unmarked = (Expr.binary .multiply (.negation (.call .sin (.literal (-0.5)) none))
            (.binary .add (.literal 1) (.literal (-2)))).unmarked) ∧
      (Expr.binary .subtract (.literal 1) (.negation (.call .cos (.literal 0) none))).Writable ∧
        ∃ place found expected, parse {} (String.ofList (Expr.binary .subtract (.literal 1)
            (.negation (.call .cos (.literal 0) none))).display) =
          .error (.invalidExpression place found expected) := by
  have hhalf : (Expr.literal (-0.5)).Writable := .literal (by decide +kernel) (by decide +kernel)
  have hone : (Expr.literal 1).Writable := .literal (by decide +kernel) (by decide +kernel)
  have htwo : (Expr.literal (-2)).Writable := .literal (by decide +kernel) (by decide +kernel)
  have hzero : (Expr.literal 0).Writable := .literal (by decide +kernel) (by decide +kernel)
  have hproduct : (Expr.binary .multiply (.negation (.call .sin (.literal (-0.5)) none))
      (.binary .add (.literal 1) (.literal (-2)))).Writable :=
    .binary (.negatedCall hhalf) (.binary hone htwo)
  have hdifference : (Expr.binary .subtract (.literal 1)
      (.negation (.call .cos (.literal 0) none))).Writable :=
    .binary hone (.negatedCall hzero)
  refine ⟨⟨hproduct, (parse_display hproduct ⟨by decide +kernel, by decide +kernel⟩).1 ?_⟩,
    hdifference, (parse_display hdifference ⟨by decide +kernel, by decide +kernel⟩).2
      ⟨_, _, _, .refl, rfl, by decide⟩⟩
  intro op l r hw hsigned
  cases hw with
  | refl => cases hsigned
  | left hw => cases hw with
    | operand hw => cases hw with
      | argument hw => cases hw
  | right hw => cases hw with
    | refl => rfl
    | left hw | right hw => cases hw

end DeskCalculator
