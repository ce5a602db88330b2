import DeskCalculator.Proofs.Reading.Step
import DeskCalculator.Proofs.Token.Tiling
import Mathlib.Control.Monad.Basic

/-!
# Reading follows the grammar

**Theorem (`parse_eq_ok_iff_derives`).** With limits that no text of this length can exceed, a text
is read as an expression exactly when the grammar derives the expression from its tokens. As the
calculator gives one answer, no list of tokens stands for two expressions (`Derives.unique`).

**Tiers.** The five operators of the grammar follow one pattern. An operator has a phrase of its own
tier on its left and a phrase of the next tier on its right, and all three make up a phrase of its
tier (`Derives.binary`). A phrase of a tighter kind is also one of every looser kind
(`Derives.loosen`). These are all the phrases that there are besides operands
(`Derives.tierInduction`).

**Soundness** (`Spells.of_steps`, `Spells.derives`). A reading holds all that matters of the tokens
read so far. `Spells r ts` says what `ts` can be: for each open level the tokens in front of it, the
operators that wait with their left operands, and the beginning of an operand. A reading that may
end spells a sum, which stands for the expression that the reading gives. The operators that wait on
one level bind tighter and tighter (`Pending`). So an operator that is settled finds a right operand
of the kind that it takes, and gives one of its own kind (`Pending.settle`).

**Completeness** (`Derives.reads`). Wherever an operand may start, the tokens of a phrase can be
read, and what is read is the expression of the phrase. While a phrase is read, some of its
operators may still wait when its last token comes. They are part of the phrase as soon as an
operator of a looser tier, a closing parenthesis or the end settles them. So "what is read is `e`"
means: whoever settles what waits finds what would be there if `e` had been read as one operand
(`Reads`). The operators that wait in front of the phrase must bind less tight than its kind, so
that nothing inside it is taken by them.
-/

namespace DeskCalculator

/-! ## Tiers and phrases -/

namespace Phrase

/-- The place of a kind of phrase, the loosest first. -/
def rank : Phrase → Nat
  | sum => 0
  | product => 1
  | power => 2
  | operand => 3

end Phrase

namespace Tier

/-- The phrases that an operator of the tier makes up, and takes on its left. -/
def phrase : Tier → Phrase
  | additive => .sum
  | multiplicative => .product
  | power => .power

/-- The phrases that an operator of the tier takes on its right. -/
def rightPhrase : Tier → Phrase
  | additive => .product
  | multiplicative => .power
  | power => .operand

@[simp] theorem rank_phrase (t : Tier) : t.phrase.rank = t.rank := by
  cases t <;> rfl

@[simp] theorem rank_rightPhrase (t : Tier) : t.rightPhrase.rank = t.rank + 1 := by
  cases t <;> rfl

theorem rank_lt_operand (t : Tier) : t.rank < Phrase.operand.rank := by
  cases t <;> decide

theorem le_iff_rank {s t : Tier} : s ≤ t ↔ s.rank ≤ t.rank := Iff.rfl

end Tier

namespace Derives

variable {b : Bool} {ts ls rs : List Token} {t : Token} {e l r : Expr}

/-- A phrase of a tighter kind is one of every looser kind. -/
theorem loosen {j k : Phrase} (h : Derives k b ts e) (hjk : j.rank ≤ k.rank) :
    Derives j b ts e := by
  have hproduct : Derives .product b ts e → Derives .sum b ts e := .ofProduct
  have hpower : Derives .power b ts e → Derives .product b ts e := .ofPower
  have hoperand : Derives .operand b ts e → Derives .power b ts e := .ofOperand
  cases j <;> cases k <;> simp [Phrase.rank] at hjk <;> simp_all

theorem of_operand (h : Derives .operand b ts e) (k : Phrase) : Derives k b ts e :=
  h.loosen (by cases k <;> decide)

/-- An operator with its operands is a phrase of its tier. Only `+` allows a sign on its right. -/
theorem binary {op : Operator} (hl : Derives op.tier.phrase b ls l)
    (hop : t.kind = .operator op) (hr : Derives op.tier.rightPhrase (op = .add) rs r) :
    Derives op.tier.phrase b (ls ++ t :: rs) (.binary op l r) := by
  cases op with
  | add => exact .add hl hop hr
  | subtract => exact .subtract hl hop hr
  | multiply => exact .multiply hl hop hr
  | divide => exact .divide hl hop hr
  | power => exact .power hl hop hr

/-- What holds of operands, of two phrases joined by an operator, and of every looser kind of a
phrase of which it holds, holds of all phrases. -/
@[elab_as_elim]
theorem tierInduction
    {motive : (k : Phrase) → (b : Bool) → (ts : List Token) → (e : Expr) → Derives k b ts e → Prop}
    {k : Phrase} {b : Bool} {ts : List Token} {e : Expr} (h : Derives k b ts e)
    (operand : ∀ {b ts e} (h : Derives .operand b ts e), motive .operand b ts e h)
    (binary : ∀ {b ls t rs l r} (op : Operator) (hl : Derives op.tier.phrase b ls l)
      (hop : t.kind = .operator op) (hr : Derives op.tier.rightPhrase (op = .add) rs r),
      motive op.tier.phrase b ls l hl → motive op.tier.rightPhrase (op = .add) rs r hr →
      motive op.tier.phrase b (ls ++ t :: rs) (.binary op l r) (hl.binary hop hr))
    (loosen : ∀ {j k b ts e} (h : Derives k b ts e) (hjk : j.rank ≤ k.rank),
      motive k b ts e h → motive j b ts e (h.loosen hjk)) :
    motive k b ts e h := by
  induction h with
  | ofProduct _ ih | ofPower _ ih | ofOperand _ ih => exact loosen _ (by decide) ih
  | add hl hop hr ihl ihr => exact binary .add hl hop hr ihl ihr
  | subtract hl hop hr ihl ihr => exact binary .subtract hl hop hr ihl ihr
  | multiply hl hop hr ihl ihr => exact binary .multiply hl hop hr ihl ihr
  | divide hl hop hr ihl ihr => exact binary .divide hl hop hr ihl ihr
  | power hl hop hr ihl ihr => exact binary .power hl hop hr ihl ihr
  | number ht => exact operand (.number ht)
  | group hopen hinside hclose => exact operand (.group hopen hinside hclose)
  | call hname hf hopen hinside hclose => exact operand (.call hname hf hopen hinside hclose)
  | signedNumber hs hx => exact operand (.signedNumber hs hx)
  | signedCall hs hname hf hopen hinside hclose =>
    exact operand (.signedCall hs hname hf hopen hinside hclose)

end Derives

namespace Reading

/-! ## Tokens of a reading -/

/-- `Pending waiting b ts`: the tokens `ts`, at the start of a level, are the operators that wait
with their left operands. The flag says whether a sign may follow. -/
inductive Pending : List Waiting → Bool → List Token → Prop where
  | nil : Pending [] true []
  | cons {waiting b ts ls l t op} : Pending waiting b ts →
      (∀ w ∈ waiting, w.op.tier.rank < op.tier.rank) → Derives op.tier.phrase b ls l →
      t.kind = .operator op → Pending (⟨l, op⟩ :: waiting) (op = .add) (ts ++ (ls ++ [t]))

/-- `Opens opener b ts`: the tokens `ts` end in a parenthesis that opens a level. The flag says
whether a sign is allowed in front. -/
inductive Opens : Opener → Bool → List Token → Prop where
  | group {b t} : t.kind = .opening → Opens .group b [t]
  | call {b name f t} : name.kind = .name → Function.ofName? name.text = some f →
      t.kind = .opening →
      Opens (.call f (if b then none else some name.position) false) b [name, t]
  | signedCall {sign : Sign} {s name f t} : s.kind = .operator sign.operator →
      name.kind = .name → Function.ofName? name.text = some f → t.kind = .opening →
      Opens (.call f (some name.position) sign.isNegative) true [s, name, t]

/-- `Encloses levels ts`: the tokens `ts` are those in front of the innermost level. -/
inductive Encloses : List Level → List Token → Prop where
  | nil : Encloses [] []
  | cons {levels ts waiting b us opener vs} : Encloses levels ts → Pending waiting b us →
      Opens opener b vs → Encloses (⟨opener, waiting⟩ :: levels) (ts ++ (us ++ vs))

/-- `Begins next b ts`: the tokens `ts` begin an operand, and `next` may follow. The flag says
whether a sign is allowed in front. -/
inductive Begins : Next → Bool → List Token → Prop where
  | operand {b} : Begins (.operand b) b []
  | signed {sign : Sign} {t} : t.kind = .operator sign.operator →
      Begins (.signed sign.isNegative) true [t]
  | argument {b name f} : name.kind = .name → Function.ofName? name.text = some f →
      Begins (.argument f (if b then none else some name.position) false) b [name]
  | signedArgument {sign : Sign} {s name f} : s.kind = .operator sign.operator →
      name.kind = .name → Function.ofName? name.text = some f →
      Begins (.argument f (some name.position) sign.isNegative) true [s, name]
  | operator {b ts e} : Derives .operand b ts e → Begins (.operator e) b ts

/-- `Spells r ts`: the tokens `ts` are what has been read. -/
inductive Spells : Reading → List Token → Prop where
  | mk {levels ts waiting b us next vs} : Encloses levels ts → Pending waiting b us →
      Begins next b vs → Spells ⟨levels, waiting, next⟩ (ts ++ (us ++ vs))

variable {levels : List Level} {waiting : List Waiting} {ts us ls : List Token} {b : Bool}
  {e : Expr} {t : Token}

theorem Spells.start : Spells start [] := .mk .nil .nil .operand

/-! ## Settling what waits -/

/-- Settling joins the waiting operators that bind at least as tight as `tier` with the operand, to
a phrase of that tier. The others keep waiting. -/
theorem Pending.settle {k : Phrase} (tier : Tier) (h : Pending waiting b ts)
    (hwaiting : ∀ w ∈ waiting, w.op.tier.rank < k.rank) (htier : tier.rank ≤ k.rank)
    (he : Derives k b ls e) :
    ∃ b' us vs, ts ++ ls = us ++ vs ∧ Pending (Waiting.settle tier waiting e).1 b' us ∧
      (∀ w ∈ (Waiting.settle tier waiting e).1, w.op.tier.rank < tier.rank) ∧
      Derives tier.phrase b' vs (Waiting.settle tier waiting e).2 := by
  induction h generalizing k ls e with
  | nil => exact ⟨true, [], ls, rfl, .nil, by simp [Waiting.settle], he.loosen (by simpa)⟩
  | @cons waiting b ts us l t op hp hlt hl hop ih =>
    have hop_lt : op.tier.rank < k.rank := hwaiting _ List.mem_cons_self
    by_cases hle : tier ≤ op.tier
    · -- The operator takes the operand and is then itself one that may be taken.
      simp only [Waiting.settle, hle, if_true]
      have hbinary := hl.binary hop (he.loosen (by rw [Tier.rank_rightPhrase]; exact hop_lt))
      obtain ⟨b', us', vs', heq, hrest⟩ := ih (by simpa using hlt)
        (by simpa using Tier.le_iff_rank.1 hle) hbinary
      exact ⟨b', us', vs', by simpa using heq, hrest⟩
    · simp only [Waiting.settle, hle, if_false]
      have hlt_tier : op.tier.rank < tier.rank := by simpa [Tier.le_iff_rank] using hle
      refine ⟨_, _, ls, rfl, .cons hp hlt hl hop, ?_, he.loosen (by simpa)⟩
      intro w hw
      rcases List.mem_cons.1 hw with rfl | hw
      · exact hlt_tier
      · exact Nat.lt_trans (hlt w hw) hlt_tier

theorem settle_additive (waiting : List Waiting) (e : Expr) :
    Waiting.settle .additive waiting e = ([], Waiting.settleAll waiting e) := by
  induction waiting generalizing e with
  | nil => rfl
  | cons w waiting ih =>
    rw [Waiting.settle, if_pos (Tier.le_iff_rank.2 (Nat.zero_le _)), ih]
    rfl

theorem Pending.settleAll (h : Pending waiting b ts) (he : Derives .operand b ls e) :
    Derives .sum true (ts ++ ls) (Waiting.settleAll waiting e) := by
  obtain ⟨b', us, vs, heq, hp, -, hsum⟩ :=
    h.settle .additive (fun w _ => Tier.rank_lt_operand w.op.tier) (by decide) he
  rw [settle_additive] at hp hsum
  cases hp
  rw [heq]
  exact hsum

theorem Opens.close {opener : Opener} (h : Opens opener b us) (he : Derives .sum true ts e)
    (ht : t.kind = .closing) : Derives .operand b (us ++ (ts ++ [t])) (opener.close e) := by
  cases h with
  | group hopen => exact .group hopen he ht
  | call hname hf hopen => exact .call hname hf hopen he ht
  | @signedCall sign s name f _ hs hname hf hopen =>
    rw [Sign.close_call]
    exact .signedCall hs hname hf hopen he ht

/-! ## One more token -/

/-- Every token that is read is added to what has been read. -/
theorem Spells.step {r s : Reading} (h : Spells r ts) (ht : Step r t s) :
    Spells s (ts ++ [t]) := by
  obtain ⟨hlevels, hwaiting, hnext⟩ := h
  cases ht with
  | number hk =>
    cases hnext with
    | operand => simpa using Spells.mk hlevels hwaiting (.operator (.number hk))
  | name hk hf =>
    cases hnext with
    | operand => simpa using Spells.mk hlevels hwaiting (.argument hk hf)
  | group hk =>
    cases hnext with
    | operand => simpa using Spells.mk (.cons hlevels hwaiting (.group hk)) .nil .operand
  | sign hk =>
    cases hnext with
    | operand => simpa using Spells.mk hlevels hwaiting (.signed hk)
  | @signedNumber _ _ negative t x hk =>
    cases hnext with
    | @signed sign _ hs =>
      have hliteral := Derives.signedNumber hs hk
      rw [Sign.applyToValue_eq] at hliteral
      simpa using Spells.mk hlevels hwaiting (.operator hliteral)
  | signedName hk hf =>
    cases hnext with
    | signed hs => simpa using Spells.mk hlevels hwaiting (.signedArgument hs hk hf)
  | argument hk =>
    cases hnext with
    | argument hname hf =>
      simpa using Spells.mk (.cons hlevels hwaiting (.call hname hf hk)) .nil .operand
    | signedArgument hs hname hf =>
      simpa using Spells.mk (.cons hlevels hwaiting (.signedCall hs hname hf hk)) .nil .operand
  | @operator _ _ _ _ op hk =>
    cases hnext with
    | operator he =>
      -- What binds at least as tight as `op` becomes its left operand.
      obtain ⟨_, us', vs', heq, hp, hlt, hl⟩ :=
        hwaiting.settle op.tier (fun w _ => Tier.rank_lt_operand w.op.tier)
          (Nat.le_of_lt (Tier.rank_lt_operand op.tier)) he
      simpa [heq] using Spells.mk hlevels (.cons hp hlt hl hk) .operand
  | close hk =>
    cases hlevels with
    | cons houter hbefore hopens =>
      cases hnext with
      | operator he =>
        simpa using Spells.mk houter hbefore (.operator (hopens.close (hwaiting.settleAll he) hk))

theorem Spells.of_steps {r s : Reading} (h : Spells r ts) (hs : Steps r us s) :
    Spells s (ts ++ us) := by
  induction hs generalizing ts with
  | nil => simpa using h
  | cons ht _ ih => simpa using ih (h.step ht)

/-- A reading that may end spells the expression that it gives. -/
theorem Spells.derives {r : Reading} (h : Spells r ts) (place : Nat)
    (he : r.finish place = .ok e) : Derives .sum true ts e := by
  obtain ⟨hlevels, hwaiting, hnext⟩ := h
  cases hnext with
  | operator hoperand =>
    cases hlevels with
    | nil =>
      cases he
      simpa using hwaiting.settleAll hoperand
    | cons => cases he
  | _ => cases he

end Reading

/-! ## Every phrase is read -/

namespace Reading

/-- `Reads k b ts e`: behind operators that bind less tight than `k`, the tokens `ts` are read, and
all operators no tighter than `k` then find the operand `e`. -/
def Reads (k : Phrase) (b : Bool) (ts : List Token) (e : Expr) : Prop :=
  ∀ levels waiting, (∀ w ∈ waiting, w.op.tier.rank < k.rank) →
    ∃ waiting' e', Steps ⟨levels, waiting, .operand b⟩ ts ⟨levels, waiting', .operator e'⟩ ∧
      ∀ tier : Tier, tier.rank ≤ k.rank →
        Waiting.settle tier waiting' e' = Waiting.settle tier waiting e

variable {b : Bool} {ts ls rs us : List Token} {t : Token} {e l r : Expr}

theorem settle_of_lt {tier : Tier} {waiting : List Waiting}
    (h : ∀ w ∈ waiting, w.op.tier.rank < tier.rank) (e : Expr) :
    Waiting.settle tier waiting e = (waiting, e) := by
  cases waiting with
  | nil => rfl
  | cons w waiting =>
    have hw : w.op.tier.rank < tier.rank := h w List.mem_cons_self
    have hle : ¬ tier ≤ w.op.tier := fun hle => Nat.not_le_of_lt hw (Tier.le_iff_rank.1 hle)
    rw [Waiting.settle, if_neg hle]

theorem Reads.loosen {j k : Phrase} (h : Reads k b ts e) (hjk : j.rank ≤ k.rank) :
    Reads j b ts e := by
  intro levels waiting hwaiting
  obtain ⟨waiting', e', hsteps, hsettle⟩ :=
    h levels waiting fun w hw => Nat.lt_of_lt_of_le (hwaiting w hw) hjk
  exact ⟨waiting', e', hsteps, fun tier htier => hsettle tier (Nat.le_trans htier hjk)⟩

/-- An operator makes its left operand wait, and takes it back when the right one is complete. -/
theorem Reads.binary (op : Operator) (hl : Reads op.tier.phrase b ls l)
    (hop : t.kind = .operator op) (hr : Reads op.tier.rightPhrase (op = .add) rs r) :
    Reads op.tier.phrase b (ls ++ t :: rs) (.binary op l r) := by
  intro levels waiting hwaiting
  rw [Tier.rank_phrase] at hwaiting
  obtain ⟨waitingl, el, hstepsl, hsettlel⟩ := hl levels waiting (by simpa using hwaiting)
  -- The operator settles exactly its left phrase.
  have hleft : Waiting.settle op.tier waitingl el = (waiting, l) := by
    rw [hsettlel op.tier (by simp), settle_of_lt hwaiting]
  have hop_step : Step ⟨levels, waitingl, .operator el⟩ t
      ⟨levels, ⟨l, op⟩ :: waiting, .operand (op = .add)⟩ := by
    simpa [hleft] using @Step.operator levels waitingl el t op hop
  have hright : ∀ w ∈ (⟨l, op⟩ :: waiting : List Waiting),
      w.op.tier.rank < op.tier.rightPhrase.rank := by
    intro w hw
    rw [Tier.rank_rightPhrase]
    rcases List.mem_cons.1 hw with rfl | hw
    · exact Nat.lt_succ_self _
    · exact Nat.lt_succ_of_lt (hwaiting w hw)
  obtain ⟨waitingr, er, hstepsr, hsettler⟩ := hr levels _ hright
  refine ⟨waitingr, er, hstepsl.append (.cons hop_step hstepsr), fun tier htier => ?_⟩
  rw [Tier.rank_phrase] at htier
  rw [hsettler tier (by rw [Tier.rank_rightPhrase]; omega), Waiting.settle,
    if_pos (Tier.le_iff_rank.2 htier)]
  rfl

theorem Reads.operand (h : ∀ levels waiting,
    Steps ⟨levels, waiting, .operand b⟩ ts ⟨levels, waiting, .operator e⟩) :
    Reads .operand b ts e :=
  fun levels waiting _ => ⟨waiting, e, h levels waiting, fun _ _ => rfl⟩

/-- A sum at the start of a level is what everything that waits on the level settles to. -/
theorem Reads.settleAll (h : Reads .sum b ts e) (levels : List Level) :
    ∃ waiting e', Steps ⟨levels, [], .operand b⟩ ts ⟨levels, waiting, .operator e'⟩ ∧
      Waiting.settleAll waiting e' = e := by
  obtain ⟨waiting, e', hsteps, hsettle⟩ := h levels [] (by simp)
  have hall := hsettle .additive (by decide)
  rw [settle_additive] at hall
  exact ⟨waiting, e', hsteps, congrArg Prod.snd hall⟩

theorem Reads.enclosed {opener : Opener} {outer : List Waiting} {levels : List Level}
    (h : Reads .sum true ts e) (ht : t.kind = .closing) :
    Steps ⟨⟨opener, outer⟩ :: levels, [], .operand true⟩ (ts ++ [t])
      ⟨levels, outer, .operator (opener.close e)⟩ := by
  obtain ⟨waiting, e', hsteps, hall⟩ := h.settleAll (⟨opener, outer⟩ :: levels)
  refine hsteps.append (Step.steps ?_)
  simpa [hall] using @Step.close opener outer levels waiting e' t ht

end Reading

open Reading

/-- Every phrase is read as the expression that it stands for. -/
theorem Derives.reads {k : Phrase} {b : Bool} {ts : List Token} {e : Expr} (h : Derives k b ts e) :
    Reads k b ts e := by
  induction h with
  | ofProduct _ ih => exact ih.loosen (by decide)
  | ofPower _ ih => exact ih.loosen (by decide)
  | ofOperand _ ih => exact ih.loosen (by decide)
  | add _ hop _ ihl ihr => exact ihl.binary .add hop ihr
  | subtract _ hop _ ihl ihr => exact ihl.binary .subtract hop ihr
  | multiply _ hop _ ihl ihr => exact ihl.binary .multiply hop ihr
  | divide _ hop _ ihl ihr => exact ihl.binary .divide hop ihr
  | power _ hop _ ihl ihr => exact ihl.binary .power hop ihr
  | number ht => exact .operand fun _ _ => (Step.number ht).steps
  | group hopen _ ht ih => exact .operand fun _ _ => .cons (.group hopen) (ih.enclosed ht)
  | call hname hf hopen _ ht ih =>
    exact .operand fun _ _ => .cons (.name hname hf) (.cons (.argument hopen) (ih.enclosed ht))
  | @signedNumber sign _ _ x hs hx =>
    rw [Sign.applyToValue_eq]
    exact .operand fun _ _ => .cons (.sign hs) (Step.signedNumber hx).steps
  | signedCall hs hname hf hopen _ ht ih =>
    rw [← Sign.close_call]
    exact .operand fun _ _ =>
      .cons (.sign hs) (.cons (.signedName hname hf) (.cons (.argument hopen) (ih.enclosed ht)))

/-! ## Accepted tokens -/

/-- No text of this length exceeds the limits. -/
structure Limits.Ample (limits : Limits) (s : List Char) : Prop where
  length : s.length ≤ limits.maxLength
  depth : s.length ≤ limits.maxDepth

variable {limits : Limits} {maxDepth size : Nat} {tokens : List Token} {e e' : Expr} {s : String}

/-! ## Lists of tokens -/

theorem Expr.ofTokens_eq_ok_iff_run :
    Expr.ofTokens maxDepth size tokens = .ok e ↔
      ∃ r, Reading.start.run maxDepth tokens = .ok r ∧ r.finish size = .ok e := by
  unfold Expr.ofTokens
  cases Reading.start.run maxDepth tokens <;> simp [Except.bind]

theorem Expr.ofTokens_eq_error_iff_run {failure : Failure} :
    Expr.ofTokens maxDepth size tokens = .error failure ↔
      Reading.start.run maxDepth tokens = .error failure ∨
        ∃ r, Reading.start.run maxDepth tokens = .ok r ∧ r.finish size = .error failure := by
  unfold Expr.ofTokens
  cases Reading.start.run maxDepth tokens <;> simp [Except.bind]

theorem Derives.of_ofTokens (h : Expr.ofTokens maxDepth size tokens = .ok e) :
    Derives .sum true tokens e := by
  obtain ⟨r, hrun, hfinish⟩ := Expr.ofTokens_eq_ok_iff_run.1 h
  exact (Spells.start.of_steps (Steps.of_run hrun)).derives size hfinish

/-- What the grammar derives is read, as long as every token may open a level. -/
theorem Derives.ofTokens_eq (h : Derives .sum true tokens e) (hdepth : tokens.length ≤ maxDepth)
    (size : Nat) : Expr.ofTokens maxDepth size tokens = .ok e := by
  obtain ⟨waiting, e', hsteps, hall⟩ := h.reads.settleAll []
  refine Expr.ofTokens_eq_ok_iff_run.2 ⟨_, hsteps.run_eq (by simpa using hdepth), ?_⟩
  simp [finish, hall]

/-- A list of tokens stands for at most one expression. -/
theorem Derives.unique (h : Derives .sum true tokens e) (h' : Derives .sum true tokens e') :
    e = e' := by
  have heq := h.ofTokens_eq (Nat.le_refl _) 0
  rw [h'.ofTokens_eq (Nat.le_refl _) 0] at heq
  cases heq
  rfl

/-! ## Texts -/

theorem parse_of_ample (h : limits.Ample (Text.normalize s.toList)) :
    parse limits s = Expr.ofTokens limits.maxDepth (Text.byteLength (Text.normalize s.toList))
      (tokenize (Text.normalize s.toList)) := by
  rw [parse, parseNormal, if_neg (Nat.not_lt.2 h.length)]

theorem Derives.of_parse (h : parse limits s = .ok e) :
    Derives .sum true (tokenize (Text.normalize s.toList)) e := by
  rw [parse, parseNormal] at h
  split at h
  · cases h
  · exact Derives.of_ofTokens h

theorem Derives.parse_eq (h : Derives .sum true (tokenize (Text.normalize s.toList)) e)
    (hlimits : limits.Ample (Text.normalize s.toList)) : parse limits s = .ok e := by
  rw [parse_of_ample hlimits]
  exact h.ofTokens_eq (Nat.le_trans (length_tokenize_le _) hlimits.depth) _

/-- A text is read as an expression exactly when the grammar derives the expression from its
tokens. -/
theorem parse_eq_ok_iff_derives (h : limits.Ample (Text.normalize s.toList)) :
    parse limits s = .ok e ↔ Derives .sum true (tokenize (Text.normalize s.toList)) e := by
  constructor
  · exact Derives.of_parse
  · intro he
    exact he.parse_eq h

/-- A sign belongs to the call behind it, and the signed call is the base of the power. Both calls
stand where their values may have no sign. -/
theorem derives_product_plus_signed_power :
    ({} : Limits).Ample (Text.normalize "2 * Sin(90) + -cos(0)^2".toList) ∧
      parse {} "2 * Sin(90) + -cos(0)^2" =
        .ok (.binary .add
          (.binary .multiply (.literal 2) (.call .sin (.literal 90) (some 2)))
          (.binary .power (.negation (.call .cos (.literal 0) (some 11))) (.literal 2))) ∧
      Derives .sum true (tokenize (Text.normalize "2 * Sin(90) + -cos(0)^2".toList))
        (.binary .add
          (.binary .multiply (.literal 2) (.call .sin (.literal 90) (some 2)))
          (.binary .power (.negation (.call .cos (.literal 0) (some 11))) (.literal 2))) := by
  have hample : ({} : Limits).Ample (Text.normalize "2 * Sin(90) + -cos(0)^2".toList) :=
    ⟨by decide +kernel, by decide +kernel⟩
  have hread : parse {} "2 * Sin(90) + -cos(0)^2" =
      .ok (.binary .add
        (.binary .multiply (.literal 2) (.call .sin (.literal 90) (some 2)))
        (.binary .power (.negation (.call .cos (.literal 0) (some 11))) (.literal 2))) := by
    decide +kernel
  exact ⟨hample, hread, (parse_eq_ok_iff_derives hample).1 hread⟩

end DeskCalculator
