import DeskCalculator.Proofs.Evaluation.Direct
import DeskCalculator.Proofs.Reading.Splits
import DeskCalculator.Proofs.Token.Shapes

/-!
# A call stands for its value

**Theorem (`evaluate_eq_ok_iff_of_call`).** In a text that is an expression, a call may be replaced
by the text of its value, and the whole keeps its value. The new text is an expression exactly if
the value is not negative or a sign fits where the call stands.

**Among tokens** (`exists_derives_of_signFits`, `not_derives_of_not_signFits`). The tokens around
the call are read in the same way with either of them. What has been read differs in that part only,
and the part has the same value (`Expr.likeness_sameValue`). If the value is negative where no sign
may stand, neither the call nor its value is of use: the call is a part of the whole and leaves it
without a value, and the minus of the literal is refused.

**In the text.** A text that is an expression is written in normal form (`isPlain_of_derives`). In
front of a call and behind it only marks can stand, so the new text is cut into the same lexemes
there (`Steps.joins_getLast`, `Steps.joins_head`).
-/

namespace DeskCalculator

open Reading

/-! ## Equal values -/

namespace Expr

theorem toOption_evaluate (e : Expr) : e.evaluate.toOption = e.evaluateDirectly.toOption := by
  rw [Expr.evaluate, (Residual.reduces_reduce (.ofExpr e)).toOption_eq, Residual.value?_ofExpr]

/-- The expressions have the same value, or both have none. -/
def SameValue (e e' : Expr) : Prop := e.evaluateDirectly.toOption = e'.evaluateDirectly.toOption

theorem sameValue_refl (e : Expr) : SameValue e e := rfl

theorem sameValue_iff {e e' : Expr} :
    SameValue e e' ↔ (Residual.ofExpr e).value? = (Residual.ofExpr e').value? := by
  rw [SameValue, Residual.value?_ofExpr, Residual.value?_ofExpr]

/-- Operations see nothing of an expression but its value, and nothing of a mark but whether it is
there. -/
theorem likeness_sameValue : Likeness SameValue fun u u' => u.isSome = u'.isSome where
  literal _ := rfl
  binary op l l' r r' hl hr := by
    rw [sameValue_iff] at hl hr ⊢
    simp only [Residual.ofExpr, Residual.value?, hl, hr]
  call f e e' u u' he hu := by
    have hsign : ∀ y, (withoutSign f u y).toOption = (withoutSign f u' y).toOption := by
      intro y
      cases u with
      | none => cases u' with
        | none => rfl
        | some q => cases hu
      | some p => cases u' with
        | none => cases hu
        | some q =>
          simp only [withoutSign]
          split <;> rfl
    rw [sameValue_iff] at he ⊢
    simp only [Residual.ofExpr, Residual.value?, he, hsign]
  negation he := by
    rw [sameValue_iff] at he ⊢
    simp only [Residual.ofExpr, Residual.value?, he]
  unmarked := rfl
  marked _ _ := rfl

variable {f : Function} {a : Expr} {x v : Float}

theorem evaluateDirectly_call (ha : a.evaluateDirectly = .ok x) (hv : f.apply x = .ok v)
    (u : Option Nat) : (call f a u).evaluateDirectly = withoutSign f u v := by
  rw [evaluateDirectly, ha]
  show (f.apply x).bind _ = _
  rw [hv]
  rfl

theorem withoutSign_of_fits {u : Option Nat} (h : v < 0.0 → u = none) :
    withoutSign f u v = .ok v := by
  cases u with
  | none => rfl
  | some p => exact if_neg fun hneg => by cases h hneg

/-- A signed call with a value that needs no sign is worth the signed literal. -/
theorem sameValue_applyToCall {sign : Sign} {u : Option Nat} (ha : a.evaluateDirectly = .ok x)
    (hv : f.apply x = .ok v) (hu : v < 0.0 → u = none) :
    SameValue (sign.applyToCall (call f a u)) (literal (sign.applyToValue v)) := by
  have hcall := evaluateDirectly_call ha hv u
  rw [withoutSign_of_fits hu] at hcall
  cases sign with
  | plus => exact congrArg Except.toOption hcall
  | minus =>
    show ((call f a u).evaluateDirectly.bind fun x => .ok (-x)).toOption = _
    rw [hcall]
    rfl

end Expr

/-! ## Tokens of a call -/

variable {f : Function} {a e : Expr} {x v : Float} {before inside after after' : List Token}
  {name opening closing : Token} {s : Reading}

/-- After the tokens in front of a call, an operand may start or a sign has been read. The call is
then read as a whole. -/
theorem Reading.Steps.of_call
    (h : Steps start (before ++ name :: opening :: (inside ++ closing :: after)) s)
    (hname : name.kind = .name) (hf : Function.ofName? name.text = some f)
    (hopen : opening.kind = .opening) (ha : Derives .sum true inside a)
    (hclose : closing.kind = .closing) :
    ∃ levels waiting,
      (∃ b, Steps start before ⟨levels, waiting, .operand b⟩ ∧
        Steps ⟨levels, waiting, .operator (.call f a (if b then none else some name.position))⟩
          after s) ∨
      ∃ sign : Sign, Steps start before ⟨levels, waiting, .signed sign.isNegative⟩ ∧
        Steps ⟨levels, waiting, .operator (sign.applyToCall (.call f a (some name.position)))⟩
          after s := by
  obtain ⟨r, hr, hrest⟩ := h.of_append
  -- The argument and its parentheses lead to the operand that the opening makes.
  have enclosed : ∀ {levels waiting unsignedAt negated},
      Steps ⟨levels, waiting, .argument f unsignedAt negated⟩
        (opening :: (inside ++ closing :: after)) s →
      Steps ⟨levels, waiting, .operator ((Opener.call f unsignedAt negated).close a)⟩ after s := by
    intro levels waiting unsignedAt negated hcall
    have hinside := hcall.of_step (.argument hopen)
    rw [show inside ++ closing :: after = inside ++ [closing] ++ after by simp] at hinside
    obtain ⟨u, hu, hafter⟩ := hinside.of_append
    have hoperand : Steps ⟨⟨.call f unsignedAt negated, waiting⟩ :: levels, [], .operand true⟩
        (inside ++ [closing])
        ⟨levels, waiting, .operator ((Opener.call f unsignedAt negated).close a)⟩ :=
      ha.reads.enclosed hclose
    cases hu.unique hoperand
    exact hafter
  cases hrest with
  | cons ht hrest =>
    cases ht with
    | @name levels waiting b _ g hk hg =>
      obtain rfl : f = g := Option.some.inj (hf.symm.trans hg)
      exact ⟨levels, waiting, .inl ⟨b, hr, enclosed hrest⟩⟩
    | @signedName levels waiting negative _ g hk hg =>
      obtain rfl : f = g := Option.some.inj (hf.symm.trans hg)
      obtain ⟨sign, rfl⟩ : ∃ sign : Sign, sign.isNegative = negative := by
        cases negative
        · exact ⟨.plus, rfl⟩
        · exact ⟨.minus, rfl⟩
      refine ⟨levels, waiting, .inr ⟨sign, hr, ?_⟩⟩
      rw [← Sign.close_call]
      exact enclosed hrest
    | number hk | group hk | sign hk | signedNumber hk | argument hk | operator hk | close hk =>
      rw [hname] at hk
      cases hk

/-! ## Tokens of a literal -/

section Literal

variable {negative : Bool} {text : List Char} {levels : List Level} {waiting : List Waiting}

theorem Decimal.Numeral.steps_operand (h : Decimal.Numeral v negative text) {b : Bool}
    (hb : negative → b = true) (levels : List Level) (waiting : List Waiting) (place : Nat) :
    Steps ⟨levels, waiting, .operand b⟩
      (Token.inOrder place (lexemes (Decimal.plainChars v)))
      ⟨levels, waiting, .operator (.literal v)⟩ := by
  obtain ⟨y, hkind, hvalue⟩ := h.kind
  rw [h.lexemes_plainChars]
  cases negative with
  | false =>
    obtain rfl : v = y := hvalue
    exact (Step.number hkind).steps
  | true =>
    obtain rfl : v = -y := hvalue
    obtain rfl := hb rfl
    exact .cons (@Step.sign _ _ _ .minus rfl) (Step.signedNumber hkind).steps

theorem Decimal.Numeral.steps_signed (h : Decimal.Numeral v false text) (sign : Sign)
    (levels : List Level) (waiting : List Waiting) (place : Nat) :
    Steps ⟨levels, waiting, .signed sign.isNegative⟩
      (Token.inOrder place (lexemes (Decimal.plainChars v)))
      ⟨levels, waiting, .operator (.literal (sign.applyToValue v))⟩ := by
  obtain ⟨y, hkind, rfl⟩ := h.kind
  rw [h.lexemes_plainChars, Sign.applyToValue_eq]
  exact (Step.signedNumber hkind).steps

theorem Decimal.Numeral.not_steps (h : Decimal.Numeral v true text) {next : Next}
    (hnext : next.Unsigned) (place : Nat) :
    ¬ Steps ⟨levels, waiting, next⟩
      (Token.inOrder place (lexemes (Decimal.plainChars v)) ++ after) s := by
  rw [h.lexemes_plainChars]
  exact not_steps_of_unsigned hnext (Token.kind_symbol place .subtract)

end Literal

/-! ## The literal in place of the call -/

section Replacement

variable {negative : Bool} {text : List Char}
  (h : Derives .sum true (before ++ name :: opening :: (inside ++ closing :: after)) e)
  (hname : name.kind = .name) (hf : Function.ofName? name.text = some f)
  (hopen : opening.kind = .opening) (ha : Derives .sum true inside a)
  (hclose : closing.kind = .closing) (hx : a.evaluateDirectly = .ok x) (hv : f.apply x = .ok v)
  (hnumeral : Decimal.Numeral v negative text) (hnegative : negative ↔ v < 0.0)

include h hname hf hopen ha hclose hx hv hnumeral hnegative

/-- If a sign fits where the value needs one, the tokens with the literal stand for an expression of
the same value. -/
theorem exists_derives_of_signFits (hfits : v < 0.0 → SignFits before)
    (hafter : List.Forall₂ Token.Alike after after') (place : Nat) :
    ∃ e', Derives .sum true
        (before ++ (Token.inOrder place (lexemes (Decimal.plainChars v)) ++ after')) e' ∧
      Expr.SameValue e e' := by
  obtain ⟨waiting₀, e₀, hsteps, hall⟩ := h.reads.settleAll []
  obtain ⟨levels, waiting, hcall⟩ := hsteps.of_call hname hf hopen ha hclose
  -- With either of them the same tokens are read before and after, and they have the same value.
  obtain ⟨r, c, c', hbefore, hliteral, hrest, hvalue⟩ : ∃ r c c', Steps start before r ∧
      Steps r (Token.inOrder place (lexemes (Decimal.plainChars v)))
        ⟨levels, waiting, .operator c'⟩ ∧
      Steps ⟨levels, waiting, .operator c⟩ after ⟨[], waiting₀, .operator e₀⟩ ∧
      Expr.SameValue c c' := by
    rcases hcall with ⟨b, hbefore, hrest⟩ | ⟨sign, hbefore, hrest⟩
    · have hb : v < 0.0 → b = true := fun hneg =>
        Bool.of_not_eq_false fun hfalse =>
          not_signFits_of_steps (hfalse ▸ hbefore) (.inl rfl) (hfits hneg)
      refine ⟨_, _, _, hbefore,
        hnumeral.steps_operand (fun hneg => hb (hnegative.1 hneg)) levels waiting place, hrest, ?_⟩
      have hvalue := Expr.evaluateDirectly_call hx hv (if b then none else some name.position)
      rw [Expr.withoutSign_of_fits fun hneg => by rw [hb hneg]; rfl] at hvalue
      exact congrArg Except.toOption hvalue
    · have hpositive : ¬ v < 0.0 := fun hneg =>
        not_signFits_of_steps hbefore (.inr ⟨_, rfl⟩) (hfits hneg)
      obtain rfl : negative = false := Bool.eq_false_iff.2 fun hneg => hpositive (hnegative.1 hneg)
      exact ⟨_, _, _, hbefore, hnumeral.steps_signed sign levels waiting place, hrest,
        Expr.sameValue_applyToCall hx hv fun hneg => absurd hneg hpositive⟩
  have halike : Reading.Alike Expr.SameValue (fun u u' => u.isSome = u'.isSome)
      ⟨levels, waiting, .operator c⟩ ⟨levels, waiting, .operator c'⟩ := by
    refine alike_operator Expr.sameValue_refl (fun _ => ?_) levels waiting hvalue
    rfl
  obtain ⟨s', hrest', hs'⟩ := halike.steps Expr.likeness_sameValue hafter hrest
  obtain ⟨waiting', e', rfl, he'⟩ := hs'.finish Expr.likeness_sameValue
  have hread := hbefore.append (hliteral.append hrest')
  exact ⟨_, (Spells.start.of_steps hread).derives 0 rfl, hall ▸ he'⟩

/-- If the value is negative and no sign fits, neither the expression has a value nor the tokens
with the literal are one. -/
theorem not_derives_of_not_signFits (hneg : v < 0.0) (hfits : ¬ SignFits before) (place : Nat) :
    e.evaluateDirectly.toOption = none ∧
      ∀ e', ¬ Derives .sum true
        (before ++ (Token.inOrder place (lexemes (Decimal.plainChars v)) ++ after')) e' := by
  obtain ⟨waiting₀, e₀, hsteps, hall⟩ := h.reads.settleAll []
  obtain ⟨levels, waiting, hcall⟩ := hsteps.of_call hname hf hopen ha hclose
  obtain rfl : negative = true := hnegative.2 hneg
  -- The call is marked, and what was in front of it takes no sign.
  obtain ⟨next, c, hnext, hbefore, hpart, hrest⟩ : ∃ next c,
      next.Unsigned ∧ Steps start before ⟨levels, waiting, next⟩ ∧
      (Expr.call f a (some name.position)).Within c ∧
      Steps ⟨levels, waiting, .operator c⟩ after ⟨[], waiting₀, .operator e₀⟩ := by
    rcases hcall with ⟨b, hbefore, hrest⟩ | ⟨sign, hbefore, hrest⟩
    · cases b with
      | true => exact absurd (signFits_of_steps hbefore) hfits
      | false => exact ⟨_, _, .inl rfl, hbefore, .refl, hrest⟩
    · refine ⟨_, _, .inr ⟨_, rfl⟩, hbefore, ?_, hrest⟩
      cases sign with
      | plus => exact .refl
      | minus => exact .operand .refl
  refine ⟨?_, fun e' he' => ?_⟩
  · have hvalueless := Expr.evaluateDirectly_call hx hv (some name.position)
    rw [withoutSign, if_pos hneg] at hvalueless
    have hwithin := (hrest.holds (.operand hpart)).within_settleAll
    rw [hall] at hwithin
    exact toOption_eq_none_iff.2 (hwithin.evaluateDirectly_eq_error hvalueless)
  · obtain ⟨waiting', e₁, hsteps', -⟩ := he'.reads.settleAll []
    obtain ⟨u, hu, hrest'⟩ := hsteps'.of_append
    cases hu.unique hbefore
    exact hnumeral.not_steps hnext place hrest'

end Replacement

namespace Reading

variable {r s : Reading} {t : Token} {ts : List Token} {n : List Char}
  {pre post : List (List Char)} {levels : List Level} {waiting : List Waiting} {next : Next}
  {e : Expr} {place : Nat}

/-! ## Characters of an expression -/

theorem Steps.exists_step (h : Steps r ts s) (ht : t ∈ ts) : ∃ u v, Step u t v := by
  induction h with
  | nil => cases ht
  | cons hstep _ ih =>
    rcases List.mem_cons.1 ht with rfl | ht
    · exact ⟨_, _, hstep⟩
    · exact ih ht

theorem Step.kind_ne_stray (h : Step r t s) :
    t.kind ≠ .stray ∧ (t.kind = .name → ∃ f, Function.ofName? t.text = some f) := by
  cases h with
  | name hk hf | signedName hk hf => exact ⟨by simp [hk], fun _ => ⟨_, hf⟩⟩
  | number hk | group hk | sign hk | signedNumber hk | argument hk | operator hk | close hk =>
    simp [hk]

end Reading

theorem Token.exists_mem_inOrder {texts : List (List Char)} {l : List Char} (h : l ∈ texts)
    (place : Nat) : ∃ p, ofText p l ∈ inOrder place texts := by
  induction texts generalizing place with
  | nil => cases h
  | cons text texts ih =>
    rcases List.mem_cons.1 h with rfl | h
    · exact ⟨place, by simp⟩
    · obtain ⟨p, hp⟩ := ih h (place + Text.byteLength text)
      exact ⟨p, by simp [hp]⟩

theorem isPlain_of_derives {n : List Char} {e : Expr} (h : Derives .sum true (tokenize n) e) :
    ∀ c ∈ n, Text.IsPlain c := by
  intro c hc
  rw [← flatten_lexemes n] at hc
  obtain ⟨l, hl, hc⟩ := List.mem_flatten.1 hc
  obtain ⟨p, hp⟩ := Token.exists_mem_inOrder hl 0
  obtain ⟨waiting, e', hsteps, -⟩ := h.reads.settleAll []
  obtain ⟨u, v, hstep⟩ := hsteps.exists_step hp
  obtain ⟨hstray, hname⟩ := hstep.kind_ne_stray
  exact isPlain_of_mem_lexemes hl hname hstray c hc

/-! ## Marks around a call -/

namespace Reading

variable {n : List Char} {texts : List (List Char)} {levels : List Level}
  {waiting : List Waiting} {next : Next} {e : Expr} {place : Nat} {r s : Reading} {t : Token}

/-- Where an operand may start or a sign has been read, the token before is a mark. -/
theorem Step.kind_of_next (h : Step r t ⟨levels, waiting, next⟩)
    (hnext : (∃ b, next = .operand b) ∨ ∃ negative, next = .signed negative) :
    (∃ op, t.kind = .operator op) ∨ t.kind = .opening ∨ t.kind = .closing := by
  rcases hnext with ⟨b, rfl⟩ | ⟨negative, rfl⟩
  · rcases h.kind_of_operand with hk | hk
    · exact .inr (.inl hk)
    · exact .inl hk
  · cases h with
    | sign hk => exact .inl ⟨_, hk⟩

theorem Steps.joins_getLast (h : Steps start (Token.inOrder place texts) ⟨levels, waiting, next⟩)
    (hnext : (∃ b, next = .operand b) ∨ ∃ negative, next = .signed negative)
    (hmem : ∀ l ∈ texts, l ∈ lexemes n) :
    ∀ c ∈ texts.flatten.getLast?, Lexeme.joins c = false := by
  rcases List.eq_nil_or_concat' texts with rfl | ⟨front, l, rfl⟩
  · simp
  · rw [Token.inOrder_append] at h
    obtain ⟨u, -, ht⟩ := h.exists_last
    obtain ⟨c, rfl, hc⟩ := exists_mark_of_kind (hmem l (by simp)) (ht.kind_of_next hnext)
    simpa using hc

theorem Steps.joins_head (h : Steps ⟨levels, waiting, .operator e⟩ (Token.inOrder place texts) s)
    (hmem : ∀ l ∈ texts, l ∈ lexemes n) :
    ∀ d ∈ texts.flatten.head?, Lexeme.joins d = false := by
  cases texts with
  | nil => simp
  | cons l texts =>
    cases h with
    | cons ht _ =>
      have hkind : (∃ op, (Token.ofText place l).kind = .operator op) ∨
          (Token.ofText place l).kind = .opening ∨ (Token.ofText place l).kind = .closing := by
        cases ht with
        | operator hk => exact .inl ⟨_, hk⟩
        | close hk => exact .inr (.inr hk)
      obtain ⟨c, rfl, hc⟩ := exists_mark_of_kind (hmem l (by simp)) hkind
      simpa using hc

end Reading

/-! ## Texts -/

variable {limits limits' : Limits} {s : String} {pre arg post : List (List Char)}

theorem evaluate_eq_ok_iff (h : parse limits s = .ok e) {w : Float} :
    evaluate limits s = .ok w ↔ e.evaluateDirectly.toOption = some w := by
  rw [evaluate, h, ← Expr.toOption_evaluate, toOption_eq_some_iff]
  rfl

theorem exists_parse_of_evaluate (h : evaluate limits s = .ok x) : ∃ e, parse limits s = .ok e := by
  cases hparse : parse limits s with
  | ok e => exact ⟨e, rfl⟩
  | error failure =>
    rw [evaluate, hparse] at h
    cases h

section Call

variable {n name : List Char} (hcall : lexemes n = pre ++ name :: ['('] :: (arg ++ [')'] :: post))

include hcall

theorem lexemes_argument : lexemes arg.flatten = arg := by
  have hinside : lexemes n = (pre ++ [name, ['(']]) ++ (arg ++ [')'] :: post) := by simp [hcall]
  exact lexemes_eq_of_append (lexemes_flatten_of_append hinside) (.of_mark _ _ (by decide))

theorem lexemes_behind_call : lexemes post.flatten = post := by
  have hbehind : lexemes n = (pre ++ name :: ['('] :: (arg ++ [[')']])) ++ post := by simp [hcall]
  exact lexemes_flatten_of_append hbehind

theorem tokenize_of_call :
    ∃ p q p' q' p'', tokenize n = Token.inOrder 0 pre ++ Token.ofText p name ::
      Token.ofText q ['('] :: (Token.inOrder p' arg ++ Token.ofText q' [')'] ::
        Token.inOrder p'' post) := by
  rw [tokenize, hcall]
  simp only [Token.inOrder_append, Token.inOrder_cons]
  exact ⟨_, _, _, _, _, rfl⟩

/-- The tokens of the argument, where they stand, are an expression with the value that the text of
the argument has. -/
theorem exists_argument (hplain : ∀ c ∈ n, Text.IsPlain c)
    (harg : evaluate limits (String.ofList arg.flatten) = .ok x) (place : Nat) :
    ∃ a, Derives .sum true (Token.inOrder place arg) a ∧ a.evaluateDirectly = .ok x := by
  have hnormal : Text.normalize arg.flatten = arg.flatten := by
    refine Text.normalize_eq_self fun c hc => hplain c ?_
    rw [← flatten_lexemes n, hcall]
    simp [hc]
  obtain ⟨a, hparse⟩ := exists_parse_of_evaluate harg
  have hvalue := (evaluate_eq_ok_iff hparse).1 harg
  have hderives := Derives.of_parse hparse
  rw [String.toList_ofList, hnormal, tokenize, lexemes_argument hcall] at hderives
  obtain ⟨a', ha', hsame⟩ := hderives.exists_alike Expr.likeness_sameValue
    (flagAlike_self Expr.likeness_sameValue true) (Token.alike_inOrder 0 place arg)
  exact ⟨a', ha', toOption_eq_some_iff.1 (hsame.symm.trans hvalue)⟩

theorem joins_around_call {a : Expr} {p q p' q' p'' : Nat}
    (h : Derives .sum true (Token.inOrder 0 pre ++ Token.ofText p f.name.toList ::
      Token.ofText q ['('] :: (Token.inOrder p' arg ++ Token.ofText q' [')'] ::
        Token.inOrder p'' post)) e)
    (ha : Derives .sum true (Token.inOrder p' arg) a) :
    (∀ c ∈ pre.flatten.getLast?, Lexeme.joins c = false) ∧
      ∀ d ∈ post.flatten.head?, Lexeme.joins d = false := by
  have hmem : ∀ l, l ∈ pre ∨ l ∈ post → l ∈ lexemes n := by
    intro l hl
    rw [hcall]
    rcases hl with hl | hl <;> simp [hl]
  have hname : (Token.ofText p f.name.toList).kind = .name := Token.kind_name p f
  have hf : Function.ofName? (Token.ofText p f.name.toList).text = some f := Function.ofName?_name f
  obtain ⟨waiting₀, e₀, hsteps, -⟩ := h.reads.settleAll []
  obtain ⟨levels, waiting, ⟨b, hbefore, hafter⟩ | ⟨sign, hbefore, hafter⟩⟩ :=
    hsteps.of_call hname hf rfl ha rfl
  · exact ⟨hbefore.joins_getLast (.inl ⟨b, rfl⟩) fun l hl => hmem l (.inl hl),
      hafter.joins_head fun l hl => hmem l (.inr hl)⟩
  · exact ⟨hbefore.joins_getLast (.inr ⟨_, rfl⟩) fun l hl => hmem l (.inl hl),
      hafter.joins_head fun l hl => hmem l (.inr hl)⟩

/-- With the text of a double between them, the texts in front of and behind a call keep their
lexemes and their normal form. -/
theorem lexemes_with_literal {negative : Bool} {text : List Char}
    (hplain : ∀ c ∈ n, Text.IsPlain c) (hnumeral : Decimal.Numeral v negative text)
    (hpre : ∀ c ∈ pre.flatten.getLast?, Lexeme.joins c = false)
    (hpost : ∀ d ∈ post.flatten.head?, Lexeme.joins d = false) :
    lexemes (Text.normalize (pre.flatten ++ (Decimal.plainChars v ++ post.flatten))) =
      pre ++ (lexemes (Decimal.plainChars v) ++ post) := by
  have hpieces : ∀ c, c ∈ pre.flatten ∨ c ∈ post.flatten → Text.IsPlain c := by
    intro c hc
    refine hplain c ?_
    rw [← flatten_lexemes n, hcall]
    rcases hc with hc | hc <;> simp [hc]
  rw [Text.normalize_append, Text.normalize_append, hnumeral.normalize_plainChars,
    Text.normalize_eq_self fun c hc => hpieces c (.inl hc),
    Text.normalize_eq_self fun c hc => hpieces c (.inr hc), lexemes_append (.of_last hpre _),
    lexemes_append (.of_head _ hpost), lexemes_behind_call hcall,
    lexemes_eq_of_append hcall (.of_last hpre _)]

end Call

/-- In a text that is an expression, the call of a function may be replaced by the text of its
value. The call is given by the lexemes in front of its name, in its parentheses and behind them.

- The whole has the same value, or none.
- The new text is an expression exactly if the value is not negative or a sign fits in front
  of it. -/
theorem evaluate_eq_ok_iff_of_call (hparse : parse limits s = .ok e)
    (hcall : lexemes (Text.normalize s.toList) =
      pre ++ f.name.toList :: ['('] :: (arg ++ [')'] :: post))
    (harg : evaluate limits (String.ofList arg.flatten) = .ok x) (hv : f.apply x = .ok v)
    (hfinite : v.isFinite) (hzero : v ≠ -0.0)
    (hreads : Decimal.floatOfChars? (Decimal.plainChars v) = some v)
    (hlimits : limits'.Ample
      (Text.normalize (pre.flatten ++ (Decimal.plainChars v ++ post.flatten)))) :
    (∀ w, evaluate limits s = .ok w ↔
      evaluate limits' (String.ofList (pre.flatten ++ (Decimal.plainChars v ++ post.flatten))) =
        .ok w) ∧
    ((∃ e', parse limits'
        (String.ofList (pre.flatten ++ (Decimal.plainChars v ++ post.flatten))) = .ok e') ↔
      (v < 0.0 → SignFits (tokenize pre.flatten))) := by
  have hderives := Derives.of_parse hparse
  have hplain := isPlain_of_derives hderives
  obtain ⟨text, hnumeral⟩ := Decimal.exists_numeral hfinite hreads
  have hnegative := (Binary64.lt_zero_iff hfinite hzero).symm
  obtain ⟨p, q, p', q', p'', htokens⟩ := tokenize_of_call hcall
  rw [htokens] at hderives
  obtain ⟨a, ha, hx⟩ := exists_argument hcall hplain harg p'
  have hname := Token.kind_name p f
  have hf : Function.ofName? (Token.ofText p f.name.toList).text = some f := Function.ofName?_name f
  obtain ⟨hpre, hpost⟩ := joins_around_call hcall hderives ha
  have hbefore : tokenize pre.flatten = Token.inOrder 0 pre := by
    rw [tokenize, lexemes_eq_of_append hcall (.of_last hpre _)]
  -- Around the literal the new text has the lexemes of the old one, some of them at other places.
  obtain ⟨place, behind, hnew⟩ : ∃ place behind, tokenize (Text.normalize
      (String.ofList (pre.flatten ++ (Decimal.plainChars v ++ post.flatten))).toList) =
      Token.inOrder 0 pre ++ (Token.inOrder place (lexemes (Decimal.plainChars v)) ++
        Token.inOrder behind post) := by
    rw [String.toList_ofList, tokenize, lexemes_with_literal hcall hplain hnumeral hpre hpost,
      Token.inOrder_append, Token.inOrder_append]
    exact ⟨_, _, rfl⟩
  have hample : limits'.Ample (Text.normalize
      (String.ofList (pre.flatten ++ (Decimal.plainChars v ++ post.flatten))).toList) := by
    simpa using hlimits
  rw [hbefore]
  -- If a sign fits where one is needed, both texts have the same value. Otherwise neither has one.
  by_cases hfits : v < 0.0 → SignFits (Token.inOrder 0 pre)
  · obtain ⟨e', he', hsame⟩ := exists_derives_of_signFits hderives hname hf rfl ha rfl hx hv
      hnumeral hnegative hfits (Token.alike_inOrder p'' behind post) place
    rw [← hnew] at he'
    have hparse' := he'.parse_eq hample
    refine ⟨fun w => ?_, fun _ => hfits, fun _ => ⟨e', hparse'⟩⟩
    rw [evaluate_eq_ok_iff hparse, evaluate_eq_ok_iff hparse', hsame]
  · obtain ⟨hneg, hnot⟩ := Classical.not_imp.1 hfits
    obtain ⟨hvalueless, hrefused⟩ := not_derives_of_not_signFits hderives hname hf rfl ha rfl hx hv
      hnumeral hnegative hneg hnot place
    have hparse' : ∀ e', parse limits' (String.ofList
        (pre.flatten ++ (Decimal.plainChars v ++ post.flatten))) ≠ .ok e' := by
      intro e' he'
      have hderives' := Derives.of_parse he'
      rw [hnew] at hderives'
      exact hrefused e' hderives'
    refine ⟨fun w => ?_, ?_, fun h => absurd h hfits⟩
    · rw [evaluate_eq_ok_iff hparse, hvalueless]
      constructor
      · intro hvalue
        cases hvalue
      · intro hvalue
        obtain ⟨e', he'⟩ := exists_parse_of_evaluate hvalue
        exact absurd he' (hparse' e')
    · rintro ⟨e', he'⟩
      exact absurd he' (hparse' e')

/-- In `2 - Sqrt(9+7)^2` the call may be replaced by `4`. -/
theorem evaluate_eq_ok_iff_of_square_root :
    parse {} "2 - Sqrt(9+7)^2" =
      .ok (.binary .subtract (.literal 2) (.binary .power
        (.call .sqrt (.binary .add (.literal 9) (.literal 7)) (some 2)) (.literal 2))) ∧
    evaluate {} "9+7" = .ok 16 ∧ Function.apply .sqrt 16 = .ok 4 ∧
    (∀ w, evaluate {} "2 - Sqrt(9+7)^2" = .ok w ↔ evaluate {} "2-4^2" = .ok w) ∧
    ((∃ e', parse {} "2-4^2" = .ok e') ↔ ((4 : Float) < 0.0 → SignFits (tokenize ['2', '-']))) := by
  have hparse : parse {} "2 - Sqrt(9+7)^2" =
      .ok (.binary .subtract (.literal 2) (.binary .power
        (.call .sqrt (.binary .add (.literal 9) (.literal 7)) (some 2)) (.literal 2))) := by
    decide +kernel
  have hroot : Function.apply .sqrt 16 = .ok 4 := by decide +kernel
  have hcall : lexemes (Text.normalize "2 - Sqrt(9+7)^2".toList) =
      [['2'], ['-']] ++ Function.sqrt.name.toList :: ['('] ::
        ([['9'], ['+'], ['7']] ++ [')'] :: [['^'], ['2']]) := by
    decide +kernel
  have harg : evaluate {} (String.ofList [['9'], ['+'], ['7']].flatten) = .ok 16 := by
    decide +kernel
  have hlimits : ({} : Limits).Ample (Text.normalize ([['2'], ['-']].flatten ++
      (Decimal.plainChars 4 ++ [['^'], ['2']].flatten))) :=
    ⟨by decide +kernel, by decide +kernel⟩
  have hreplaced := evaluate_eq_ok_iff_of_call hparse hcall harg hroot (by decide +kernel)
    (by decide +kernel) (by decide +kernel) hlimits
  have htext : String.ofList ([['2'], ['-']].flatten ++
      (Decimal.plainChars 4 ++ [['^'], ['2']].flatten)) = "2-4^2" := by
    decide +kernel
  have hargument : String.ofList [['9'], ['+'], ['7']].flatten = "9+7" := by decide +kernel
  rw [htext] at hreplaced
  rw [hargument] at harg
  exact ⟨hparse, harg, hroot, hreplaced⟩

end DeskCalculator
