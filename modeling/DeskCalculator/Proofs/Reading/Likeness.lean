import DeskCalculator.Proofs.Reading.Acceptance
import Mathlib.Data.List.Forall2

/-!
# Readings that are alike

Two lists of tokens that differ only in the places of the tokens are read in the same way. What has
been read may differ too, as long as operations do not see the difference.

**Likeness** (`Likeness R M`). A relation `R` of expressions that every operation keeps. The marks
of calls may differ as the relation `M` allows. Expressions that differ in nothing but the marks are
alike for every operation (`likeness_unmarked`).

**Theorem (`Reading.Alike.steps`).** From readings that are alike, tokens that are alike lead to
readings that are alike.

**Theorem (`Derives.exists_alike`).** The tokens of a phrase, at other places and as an input of
their own, stand for an expression that is like the one that the phrase stands for.

**Parts** (`Expr.Within`). The expressions that an expression is built from, itself among them.
Direct evaluation computes every part, so a part without a value leaves the whole without one
(`Within.evaluateDirectly_eq_error`).

**Theorem (`Steps.holds`).** An operand that has been built is never given up: a part of an operand
that a reading holds is held by every later reading, whether in the operand that was completed last
or in one that waits. So it is a part of the expression that is read in the end
(`Holds.within_settleAll`).
-/

namespace DeskCalculator

/-! ## Relations of expressions and tokens -/

/-- A relation of expressions that operations keep, for calls with related marks. -/
structure Likeness (R : Expr → Expr → Prop) (M : Option Nat → Option Nat → Prop) : Prop where
  literal (x : Float) : R (.literal x) (.literal x)
  binary (op : Operator) {l l' r r' : Expr} : R l l' → R r r' →
    R (.binary op l r) (.binary op l' r')
  call (f : Function) {e e' : Expr} {u u' : Option Nat} : R e e' → M u u' →
    R (.call f e u) (.call f e' u')
  negation {e e' : Expr} : R e e' → R (.negation e) (.negation e')
  unmarked : M none none
  /-- Where a mark points to does not matter. -/
  marked (p q : Nat) : M (some p) (some q)

namespace Token

/-- The same token at a possibly different place. -/
structure Alike (t t' : Token) : Prop where
  kind_eq : t.kind = t'.kind
  text_eq : t.text = t'.text

/-- Texts make up the same tokens at every place. -/
theorem alike_inOrder (p q : Nat) (texts : List (List Char)) :
    List.Forall₂ Alike (inOrder p texts) (inOrder q texts) := by
  induction texts generalizing p q with
  | nil => exact .nil
  | cons text texts ih => exact .cons ⟨rfl, rfl⟩ (ih _ _)

end Token

namespace Reading

/-! ## Parts of a reading -/

section Parts

variable (R : Expr → Expr → Prop) (M : Option Nat → Option Nat → Prop)

structure WaitingAlike (w w' : Waiting) : Prop where
  op_eq : w.op = w'.op
  left : R w.left w'.left

inductive OpenerAlike : Opener → Opener → Prop where
  | group : OpenerAlike .group .group
  | call {f u u' negated} : M u u' → OpenerAlike (.call f u negated) (.call f u' negated)

structure LevelAlike (l l' : Level) : Prop where
  opener : OpenerAlike M l.opener l'.opener
  waiting : List.Forall₂ (WaitingAlike R) l.waiting l'.waiting

/-- A sign that the first flag allows, the second allows too, and the calls that they let through
have related marks. -/
structure FlagAlike (b b' : Bool) : Prop where
  sign : b = true → b' = true
  mark (p q : Nat) : M (if b then none else some p) (if b' then none else some q)

inductive NextAlike : Next → Next → Prop where
  | operand {b b'} : FlagAlike M b b' → NextAlike (.operand b) (.operand b')
  | signed {negative} : NextAlike (.signed negative) (.signed negative)
  | argument {f u u' negated} : M u u' →
      NextAlike (.argument f u negated) (.argument f u' negated)
  | operator {e e'} : R e e' → NextAlike (.operator e) (.operator e')

/-- The readings have the same form, and their expressions are related. -/
structure Alike (r r' : Reading) : Prop where
  levels : List.Forall₂ (LevelAlike R M) r.levels r'.levels
  waiting : List.Forall₂ (WaitingAlike R) r.waiting r'.waiting
  next : NextAlike R M r.next r'.next

end Parts

variable {R : Expr → Expr → Prop} {M : Option Nat → Option Nat → Prop} (hR : Likeness R M)
  {r r' s : Reading} {t t' : Token} {ts ts' : List Token} {e e' : Expr} {b : Bool}
  {waiting waiting' : List Waiting}

include hR

theorem flagAlike_self (b : Bool) : FlagAlike M b b := by
  refine ⟨id, fun p q => ?_⟩
  cases b
  · exact hR.marked p q
  · exact hR.unmarked

/-! ## Settling -/

theorem complete_alike {w w' : Waiting} (hw : WaitingAlike R w w') (he : R e e') :
    R (w.complete e) (w'.complete e') := by
  obtain ⟨left, op⟩ := w
  obtain ⟨left', op'⟩ := w'
  obtain ⟨rfl, hleft⟩ := hw
  exact hR.binary _ hleft he

theorem settle_alike (tier : Tier) (hw : List.Forall₂ (WaitingAlike R) waiting waiting')
    (he : R e e') :
    List.Forall₂ (WaitingAlike R) (Waiting.settle tier waiting e).1
        (Waiting.settle tier waiting' e').1 ∧
      R (Waiting.settle tier waiting e).2 (Waiting.settle tier waiting' e').2 := by
  induction hw generalizing e e' with
  | nil => exact ⟨.nil, he⟩
  | @cons w w' rest rest' hhead hrest ih =>
    have hop := hhead.op_eq
    by_cases hle : tier ≤ w.op.tier
    · rw [Waiting.settle, Waiting.settle, ← hop, if_pos hle, if_pos hle]
      exact ih (complete_alike hR hhead he)
    · rw [Waiting.settle, Waiting.settle, ← hop, if_neg hle, if_neg hle]
      exact ⟨.cons hhead hrest, he⟩

theorem settleAll_alike (hw : List.Forall₂ (WaitingAlike R) waiting waiting') (he : R e e') :
    R (Waiting.settleAll waiting e) (Waiting.settleAll waiting' e') := by
  have hall := (settle_alike hR .additive hw he).2
  rwa [settle_additive, settle_additive] at hall

theorem close_alike {o o' : Opener} (ho : OpenerAlike M o o') (he : R e e') :
    R (o.close e) (o'.close e') := by
  cases ho with
  | group => exact he
  | @call f u u' negated hu =>
    cases negated
    · exact hR.call f he hu
    · exact hR.negation (hR.call f he hu)

/-! ## Steps -/

/-- Like tokens lead from like readings to like readings. -/
theorem Alike.step (h : Alike R M r r') (ht : Token.Alike t t') (hs : Step r t s) :
    ∃ s', Step r' t' s' ∧ Alike R M s s' := by
  obtain ⟨levels', waiting', next'⟩ := r'
  obtain ⟨hlevels, hwaiting, hnext⟩ := h
  obtain ⟨hkind, htext⟩ := ht
  cases hs with
  | number hk =>
    cases hnext with
    | operand _ => exact ⟨_, .number (hkind ▸ hk), hlevels, hwaiting, .operator (hR.literal _)⟩
  | name hk hf =>
    cases hnext with
    | operand hb =>
      exact ⟨_, .name (hkind ▸ hk) (htext ▸ hf), hlevels, hwaiting, .argument (hb.mark _ _)⟩
  | group hk =>
    cases hnext with
    | operand _ =>
      exact ⟨_, .group (hkind ▸ hk), .cons ⟨.group, hwaiting⟩ hlevels, .nil,
        .operand (flagAlike_self hR true)⟩
  | sign hk =>
    cases hnext with
    | operand hb =>
      cases hb.sign rfl
      exact ⟨_, .sign (hkind ▸ hk), hlevels, hwaiting, .signed⟩
  | signedNumber hk =>
    cases hnext with
    | signed => exact ⟨_, .signedNumber (hkind ▸ hk), hlevels, hwaiting, .operator (hR.literal _)⟩
  | signedName hk hf =>
    cases hnext with
    | signed =>
      exact ⟨_, .signedName (hkind ▸ hk) (htext ▸ hf), hlevels, hwaiting,
        .argument (hR.marked _ _)⟩
  | argument hk =>
    cases hnext with
    | argument hu =>
      exact ⟨_, .argument (hkind ▸ hk), .cons ⟨.call hu, hwaiting⟩ hlevels, .nil,
        .operand (flagAlike_self hR true)⟩
  | @operator _ _ _ _ op hk =>
    cases hnext with
    | operator he =>
      obtain ⟨hrest, hleft⟩ := settle_alike hR op.tier hwaiting he
      exact ⟨_, .operator (hkind ▸ hk), hlevels, .cons ⟨rfl, hleft⟩ hrest,
        .operand (flagAlike_self hR _)⟩
  | close hk =>
    cases hlevels with
    | cons hlevel hrest =>
      cases hnext with
      | operator he =>
        exact ⟨_, .close (hkind ▸ hk), hrest, hlevel.waiting,
          .operator (close_alike hR hlevel.opener (settleAll_alike hR hwaiting he))⟩

theorem Alike.steps (h : Alike R M r r') (hts : List.Forall₂ Token.Alike ts ts')
    (hs : Steps r ts s) : ∃ s', Steps r' ts' s' ∧ Alike R M s s' := by
  induction hts generalizing r r' with
  | nil =>
    cases hs
    exact ⟨r', .nil, h⟩
  | cons ht _ ih =>
    cases hs with
    | cons hstep hsteps =>
      obtain ⟨u', hstep', hu⟩ := h.step hR ht hstep
      obtain ⟨s', hsteps', hs'⟩ := ih hu hsteps
      exact ⟨s', .cons hstep' hsteps', hs'⟩

theorem Alike.finish (h : Alike R M ⟨[], waiting, .operator e⟩ s) :
    ∃ waiting' e', s = ⟨[], waiting', .operator e'⟩ ∧
      R (Waiting.settleAll waiting e) (Waiting.settleAll waiting' e') := by
  obtain ⟨levels', waiting', next'⟩ := s
  obtain ⟨hlevels, hwaiting, hnext⟩ := h
  cases hlevels
  cases hnext with
  | operator he => exact ⟨waiting', _, rfl, settleAll_alike hR hwaiting he⟩

omit hR in
/-- A reading with another operand in place of the last one is alike, if the operands are. -/
theorem alike_operator (hrefl : ∀ e, R e e) (hmarks : ∀ u, M u u) (levels : List Level)
    (waiting : List Waiting) (he : R e e') :
    Alike R M ⟨levels, waiting, .operator e⟩ ⟨levels, waiting, .operator e'⟩ := by
  have waitingAlike : ∀ waiting, List.Forall₂ (WaitingAlike R) waiting waiting :=
    fun waiting => List.forall₂_same.2 fun w _ => ⟨rfl, hrefl w.left⟩
  have openerAlike : ∀ opener, OpenerAlike M opener opener := by
    intro opener
    cases opener with
    | group => exact .group
    | call f u negated => exact .call (hmarks u)
  exact ⟨List.forall₂_same.2 fun level _ => ⟨openerAlike level.opener, waitingAlike level.waiting⟩,
    waitingAlike waiting, .operator he⟩

end Reading

open Reading

/-- The tokens of a phrase, taken as an input of their own, stand for an expression like that of the
phrase. -/
theorem Derives.exists_alike {R : Expr → Expr → Prop} {M : Option Nat → Option Nat → Prop}
    (hR : Likeness R M) {b : Bool} {ts ts' : List Token} {e : Expr}
    (h : Derives .sum b ts e) (hb : FlagAlike M b true)
    (hts : List.Forall₂ Token.Alike ts ts') : ∃ e', Derives .sum true ts' e' ∧ R e e' := by
  obtain ⟨waiting, e₀, hsteps, rfl⟩ := h.reads.settleAll []
  have hstart : Alike R M ⟨[], [], .operand b⟩ start := ⟨.nil, .nil, .operand hb⟩
  obtain ⟨s', hsteps', hs'⟩ := hstart.steps hR hts hsteps
  obtain ⟨waiting', e', rfl, he⟩ := hs'.finish hR
  exact ⟨_, (Spells.start.of_steps hsteps').derives 0 rfl, he⟩

namespace Expr

/-! ## Marks -/

/-- The expression without the marks of its calls. -/
def unmarked : Expr → Expr
  | literal x => literal x
  | binary op left right => binary op left.unmarked right.unmarked
  | call f argument _ => call f argument.unmarked none
  | negation operand => negation operand.unmarked

/-- No operation sees the marks. -/
theorem likeness_unmarked :
    Likeness (fun e e' => e.unmarked = e'.unmarked) fun _ _ => True where
  literal _ := rfl
  binary op _ _ _ _ hl hr := congrArg₂ (binary op) hl hr
  call f _ _ _ _ he _ := congrArg (call f · none) he
  negation he := congrArg negation he
  unmarked := trivial
  marked _ _ := trivial

/-! ## Parts -/

/-- `e.Within whole`: the expression `e` is a part of `whole`, or all of it. -/
inductive Within (e : Expr) : Expr → Prop where
  | refl : Within e e
  | left {op l r} : Within e l → Within e (binary op l r)
  | right {op l r} : Within e r → Within e (binary op l r)
  | argument {f a u} : Within e a → Within e (call f a u)
  | operand {o} : Within e o → Within e (negation o)

namespace Within

variable {part whole : Expr} {failure : Failure}

theorem trans {e : Expr} (h : e.Within part) (h' : part.Within whole) : e.Within whole := by
  induction h' with
  | refl => exact h
  | left _ ih => exact .left ih
  | right _ ih => exact .right ih
  | argument _ ih => exact .argument ih
  | operand _ ih => exact .operand ih

/-- A part without a value leaves the whole without one. -/
theorem evaluateDirectly_eq_error (h : part.Within whole)
    (hpart : part.evaluateDirectly = .error failure) :
    ∃ failure', whole.evaluateDirectly = .error failure' := by
  induction h with
  | refl => exact ⟨failure, hpart⟩
  | left _ ih =>
    obtain ⟨failure', hl⟩ := ih
    exact ⟨failure', by rw [evaluateDirectly, hl]; rfl⟩
  | @right op l r _ ih =>
    obtain ⟨failure', hr⟩ := ih
    rw [evaluateDirectly, hr]
    cases l.evaluateDirectly with
    | error failure => exact ⟨failure, rfl⟩
    | ok x => exact ⟨failure', rfl⟩
  | argument _ ih =>
    obtain ⟨failure', ha⟩ := ih
    exact ⟨failure', by rw [evaluateDirectly, ha]; rfl⟩
  | operand _ ih =>
    obtain ⟨failure', ho⟩ := ih
    exact ⟨failure', by rw [evaluateDirectly, ho]; rfl⟩

end Within

end Expr

/-! ## What a reading has built -/

namespace Reading

/-- `Holds part r`: the expression `part` is a part of the operand that `r` has completed last or of
one that waits, on whatever level. -/
inductive Holds (part : Expr) : Reading → Prop where
  | operand {levels waiting e} : part.Within e → Holds part ⟨levels, waiting, .operator e⟩
  | waiting {levels waiting next w} : w ∈ waiting → part.Within w.left →
      Holds part ⟨levels, waiting, next⟩
  | level {levels waiting next level w} : level ∈ levels → w ∈ level.waiting →
      part.Within w.left → Holds part ⟨levels, waiting, next⟩

variable {part e : Expr} {r s : Reading} {t : Token} {ts : List Token} {waiting : List Waiting}
  {opener : Opener}

/-! ## Settling -/

/-- An operator that is settled takes its operands along. -/
theorem within_settle (tier : Tier)
    (h : part.Within e ∨ ∃ w ∈ waiting, part.Within w.left) :
    part.Within (Waiting.settle tier waiting e).2 ∨
      ∃ w ∈ (Waiting.settle tier waiting e).1, part.Within w.left := by
  induction waiting generalizing e with
  | nil => simpa [Waiting.settle] using h
  | cons w waiting ih =>
    by_cases hle : tier ≤ w.op.tier
    · rw [Waiting.settle, if_pos hle]
      refine ih ?_
      rcases h with h | ⟨v, hv, h⟩
      · exact .inl (.right h)
      · rcases List.mem_cons.1 hv with rfl | hv
        · exact .inl (.left h)
        · exact .inr ⟨v, hv, h⟩
    · rw [Waiting.settle, if_neg hle]
      exact h

theorem within_settleAll (h : part.Within e ∨ ∃ w ∈ waiting, part.Within w.left) :
    part.Within (Waiting.settleAll waiting e) := by
  have hsettle := within_settle .additive h
  rw [settle_additive] at hsettle
  simpa using hsettle

theorem within_close (h : part.Within e) : part.Within (opener.close e) := by
  cases opener with
  | group => exact h
  | call f unsignedAt negated =>
    cases negated with
    | false => exact .argument h
    | true => exact .operand (.argument h)

/-! ## Reading on -/

/-- No token makes a reading give up an operand. -/
theorem Step.holds (ht : Step r t s) (h : Holds part r) : Holds part s := by
  cases ht with
  | number _ | name _ _ | sign _ | signedNumber _ | signedName _ _ =>
    cases h with
    | waiting hw hpart => exact .waiting hw hpart
    | level hl hw hpart => exact .level hl hw hpart
  | group _ | argument _ =>
    cases h with
    | waiting hw hpart => exact .level List.mem_cons_self hw hpart
    | level hl hw hpart => exact .level (List.mem_cons_of_mem _ hl) hw hpart
  | @operator _ _ _ _ op _ =>
    have settled : ∀ {e : Expr} {waiting : List Waiting},
        (part.Within e ∨ ∃ w ∈ waiting, part.Within w.left) →
        ∀ levels next, Holds part ⟨levels,
          ⟨(Waiting.settle op.tier waiting e).2, op⟩ :: (Waiting.settle op.tier waiting e).1,
          next⟩ := by
      intro e waiting hpart levels next
      rcases within_settle op.tier hpart with hpart | ⟨w, hw, hpart⟩
      · exact .waiting List.mem_cons_self hpart
      · exact .waiting (List.mem_cons_of_mem _ hw) hpart
    cases h with
    | operand hpart => exact settled (.inl hpart) _ _
    | waiting hw hpart => exact settled (.inr ⟨_, hw, hpart⟩) _ _
    | level hl hw hpart => exact .level hl hw hpart
  | close _ =>
    cases h with
    | operand hpart => exact .operand (within_close (within_settleAll (.inl hpart)))
    | waiting hw hpart => exact .operand (within_close (within_settleAll (.inr ⟨_, hw, hpart⟩)))
    | level hl hw hpart =>
      rcases List.mem_cons.1 hl with rfl | hl
      · exact .waiting hw hpart
      · exact .level hl hw hpart

theorem Steps.holds (hs : Steps r ts s) (h : Holds part r) : Holds part s := by
  induction hs with
  | nil => exact h
  | cons ht _ ih => exact ih (ht.holds h)

/-- In the end everything that was held is a part of the whole. -/
theorem Holds.within_settleAll (h : Holds part ⟨[], waiting, .operator e⟩) :
    part.Within (Waiting.settleAll waiting e) := by
  cases h with
  | operand hpart => exact Reading.within_settleAll (.inl hpart)
  | waiting hw hpart => exact Reading.within_settleAll (.inr ⟨_, hw, hpart⟩)
  | level hl => cases hl

end Reading

end DeskCalculator
