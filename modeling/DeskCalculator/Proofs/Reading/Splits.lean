import DeskCalculator.Proofs.Reading.Depth
import DeskCalculator.Proofs.Reading.Likeness

/-!
# Splitting at the loosest operator

An expression can also be taken apart from the outside: at its last operator of the loosest tier
that stands outside all parentheses. What is left and right of it are expressions of their own.

**Binary operators** (`BinaryAt`). An operator outside all parentheses, right behind a number or a
closing parenthesis. Any other `+` or `-` out there is a sign.

**Theorem (`ofTokens_eq_split`).** Reading from left to right gives the tree that this split gives.

An operand has no binary operator outside its parentheses (`Derives.not_binaryAt`). The operators of
a phrase are those of its left phrase, the operator that joins the two, and those of its right
phrase (`BinaryAt.of_append`). None of them is looser than the phrase
(`Derives.rank_le_of_binaryAt`), and the ones on the right are tighter than the operator that joins.

**Signs** (`SignFits`). A sign may stand at the start of an input, behind an opening parenthesis and
behind a `+` that joins two operands. Behind another operator or behind a sign there may be none.
This is where a reading takes a sign (`signFits_of_steps`, `not_signFits_of_steps`); everywhere else
a sign is refused (`not_steps_of_unsigned`).
-/

namespace DeskCalculator

/-! ## Operators between operands -/

/-- An operand may end with the token: a number or a closing parenthesis. -/
def Token.EndsOperand (t : Token) : Prop := (∃ x, t.kind = .number x) ∨ t.kind = .closing

theorem Token.not_endsOperand_name {t : Token} (h : t.kind = .name) : ¬ t.EndsOperand := by
  rintro (⟨x, hx⟩ | hx) <;> rw [h] at hx <;> cases hx

theorem Token.not_endsOperand_operator {t : Token} {op : Operator} (h : t.kind = .operator op) :
    ¬ t.EndsOperand := by
  rintro (⟨x, hx⟩ | hx) <;> rw [h] at hx <;> cases hx

/-- `BinaryAt tokens before op after`: between `before` and `after` stands the operator `op`,
outside all parentheses and right behind an operand. -/
structure BinaryAt (tokens before : List Token) (op : Operator) (after : List Token) : Prop where
  tokens_eq : ∃ t : Token, t.kind = .operator op ∧ tokens = before ++ t :: after
  outside : nesting before = 0
  operand : ∃ t ∈ before.getLast?, t.EndsOperand

/-- `SplitAt tokens before op after`: the operator is the last one of the loosest tier. -/
structure SplitAt (tokens before : List Token) (op : Operator) (after : List Token) : Prop
    extends BinaryAt tokens before op after where
  loosest {before' op' after'} : BinaryAt tokens before' op' after' → op.tier ≤ op'.tier
  last {before' op' after'} : BinaryAt tokens before' op' after' → op'.tier = op.tier →
    before'.length ≤ before.length

theorem BinaryAt.not_of_forall {tokens before after : List Token} {op : Operator}
    (h : ∀ t ∈ before, ¬ t.EndsOperand) : ¬ BinaryAt tokens before op after := by
  intro hb
  obtain ⟨t, ht, hends⟩ := hb.operand
  exact h t (List.mem_of_getLast? ht) hends

theorem exists_of_append_cons_eq {α : Type} {as bs cs ds : List α} {x y : α}
    (h : as ++ x :: bs = cs ++ y :: ds) :
    (∃ us, as = cs ++ y :: us ∧ ds = us ++ x :: bs) ∨ (cs = as ∧ y = x ∧ ds = bs) ∨
      ∃ us, cs = as ++ x :: us ∧ bs = us ++ y :: ds := by
  rcases List.append_eq_append_iff.1 h with ⟨us, rfl, hrest⟩ | ⟨us, rfl, hrest⟩
  · cases us with
    | nil =>
      obtain ⟨rfl, rfl⟩ := List.cons.inj hrest
      exact .inr (.inl ⟨by simp, rfl, rfl⟩)
    | cons u us =>
      obtain ⟨rfl, rfl⟩ := List.cons.inj hrest
      exact .inr (.inr ⟨us, rfl, rfl⟩)
  · cases us with
    | nil =>
      obtain ⟨rfl, rfl⟩ := List.cons.inj hrest
      exact .inr (.inl ⟨by simp, rfl, rfl⟩)
    | cons u us =>
      obtain ⟨rfl, rfl⟩ := List.cons.inj hrest
      exact .inl ⟨us, rfl, rfl⟩

/-! ## Parentheses of a phrase -/

namespace Reading

variable {r s : Reading} {t : Token} {ts : List Token} {levels : List Level}
  {waiting : List Waiting} {e : Expr}

theorem Step.endsOperand (h : Step r t ⟨levels, waiting, .operator e⟩) : t.EndsOperand := by
  cases h with
  | number hk | signedNumber hk => exact .inl ⟨_, hk⟩
  | close hk => exact .inr hk

theorem Steps.exists_getLast (h : Steps r ts ⟨levels, waiting, .operator e⟩)
    (hr : ∀ e, r.next ≠ .operator e) : ∃ t ∈ ts.getLast?, t.EndsOperand := by
  rcases List.eq_nil_or_concat' ts with rfl | ⟨front, t, rfl⟩
  · cases h
    exact absurd rfl (hr e)
  · obtain ⟨u, -, ht⟩ := h.exists_last
    exact ⟨t, by simp, ht.endsOperand⟩

end Reading

open Reading

namespace Derives

variable {k : Phrase} {b : Bool} {ts ls rs read : List Token} {e l r : Expr} {t : Token}
  {op : Operator}

theorem exists_steps (h : Derives k b ts e) :
    ∃ waiting e', Steps ⟨[], [], .operand b⟩ ts ⟨[], waiting, .operator e'⟩ := by
  obtain ⟨waiting, e', hsteps, -⟩ := h.reads [] [] (by simp)
  exact ⟨waiting, e', hsteps⟩

/-- A phrase closes what it opens. -/
theorem nesting_eq_zero (h : Derives k b ts e) : nesting ts = 0 := by
  obtain ⟨waiting, e', hsteps⟩ := h.exists_steps
  simpa using hsteps.length_levels_eq.symm

theorem nesting_nonneg (h : Derives k b ts e) (hread : read <+: ts) : 0 ≤ nesting read := by
  obtain ⟨waiting, e', hsteps⟩ := h.exists_steps
  obtain ⟨more, rfl⟩ := hread
  obtain ⟨u, hu, -⟩ := hsteps.of_append
  have hlevels := hu.length_levels_eq
  simp only [List.length_nil] at hlevels
  omega

theorem exists_getLast (h : Derives k b ts e) : ∃ t ∈ ts.getLast?, t.EndsOperand := by
  obtain ⟨waiting, e', hsteps⟩ := h.exists_steps
  exact hsteps.exists_getLast fun _ => by simp

/-! ## Operators of a phrase -/

/-- Inside the parentheses of an operand nothing is outside all parentheses, and in front of them
stand only a sign and a name. -/
theorem not_binaryAt_enclosed (front : List Token) {inside before after : List Token}
    {opening closing : Token} (h : Derives .sum true inside e) (hopen : opening.kind = .opening)
    (hfront : ∀ t ∈ front, ¬ t.EndsOperand) (hnesting : nesting front = 0) :
    ¬ BinaryAt (front ++ opening :: (inside ++ [closing])) before op after := by
  intro hb
  obtain ⟨t, -, heq⟩ := hb.tokens_eq
  rcases exists_of_append_cons_eq heq with ⟨us, rfl, -⟩ | ⟨rfl, -, -⟩ | ⟨us, rfl, hinside⟩
  · exact BinaryAt.not_of_forall (fun t ht => hfront t (by simp [ht])) hb
  · exact BinaryAt.not_of_forall hfront hb
  · -- The operator would stand behind the opening parenthesis and in front of the closing one.
    have hread : us <+: inside := by
      rcases exists_of_append_cons_eq hinside with ⟨vs, rfl, -⟩ | ⟨rfl, -, -⟩ | ⟨vs, -, hlast⟩
      · exact List.prefix_append us _
      · exact List.prefix_refl _
      · simp at hlast
    have hnonneg := h.nesting_nonneg hread
    have houtside := hb.outside
    rw [nesting_append, nesting_cons, Token.delta_opening hopen] at houtside
    omega

theorem not_binaryAt {before after : List Token} (h : Derives .operand b ts e) :
    ¬ BinaryAt ts before op after := by
  intro hb
  cases h with
  | number ht =>
    obtain ⟨u, hu, heq⟩ := hb.tokens_eq
    cases before with
    | nil => exact BinaryAt.not_of_forall (by simp) hb
    | cons v before => simp at heq
  | @signedNumber sign t u x hs hx =>
    obtain ⟨v, hv, heq⟩ := hb.tokens_eq
    rcases before with - | ⟨w, - | ⟨w', before⟩⟩
    · exact BinaryAt.not_of_forall (by simp) hb
    · obtain ⟨rfl, -⟩ := List.cons.inj heq
      exact BinaryAt.not_of_forall (by simpa using Token.not_endsOperand_operator hs) hb
    · simp at heq
  | group hopen hinside _ => exact not_binaryAt_enclosed [] hinside hopen (by simp) rfl hb
  | @call _ name _ _ _ _ _ hname _ hopen hinside _ =>
    exact not_binaryAt_enclosed [name] hinside hopen
      (by simpa using Token.not_endsOperand_name hname) (by simp [Token.delta_name hname]) hb
  | @signedCall _ s name _ _ _ _ _ hs hname _ hopen hinside _ =>
    refine not_binaryAt_enclosed [s, name] hinside hopen ?_
      (by simp [Token.delta_operator hs, Token.delta_name hname]) hb
    simpa using ⟨Token.not_endsOperand_operator hs, Token.not_endsOperand_name hname⟩

end Derives

/-- An operator of two phrases with an operator between them is one of the left phrase, the one
between them, or one of the right phrase. -/
theorem BinaryAt.of_append {ls rs before after : List Token} {t : Token} {op op' : Operator}
    (ht : t.kind = .operator op) (hls : nesting ls = 0)
    (h : BinaryAt (ls ++ t :: rs) before op' after) :
    (before.length < ls.length ∧ ∃ more, BinaryAt ls before op' more) ∨
      (before = ls ∧ op' = op) ∨ ∃ more, BinaryAt rs more op' after := by
  obtain ⟨u, hu, heq⟩ := h.tokens_eq
  rcases exists_of_append_cons_eq heq with ⟨us, rfl, -⟩ | ⟨rfl, rfl, -⟩ | ⟨us, rfl, rfl⟩
  · exact .inl ⟨by simp, us, ⟨u, hu, rfl⟩, h.outside, h.operand⟩
  · rw [ht] at hu
    cases hu
    exact .inr (.inl ⟨rfl, rfl⟩)
  · refine .inr (.inr ⟨us, ⟨u, hu, rfl⟩, ?_, ?_⟩)
    · have houtside := h.outside
      rwa [nesting_append, nesting_cons, hls, Token.delta_operator ht, Int.zero_add,
        Int.zero_add] at houtside
    · obtain ⟨w, hw, hends⟩ := h.operand
      cases us with
      | nil =>
        -- Right behind the operator that joins there can be a sign only.
        have hlast : w = t := by simpa using hw.symm
        exact absurd (hlast ▸ hends) (Token.not_endsOperand_operator ht)
      | cons v us => exact ⟨w, by simpa [List.getLast?_append] using hw, hends⟩

namespace Derives

variable {k : Phrase} {b : Bool} {ts ls rs before after : List Token} {e l r : Expr} {t : Token}
  {op : Operator}

/-- The operators outside the parentheses of a phrase bind at least as tight as the phrase. -/
theorem rank_le_of_binaryAt (h : Derives k b ts e) (hb : BinaryAt ts before op after) :
    k.rank ≤ op.tier.rank := by
  induction h using tierInduction generalizing before op after with
  | operand h => exact absurd hb h.not_binaryAt
  | binary op' hl hop hr ihl ihr =>
    rw [Tier.rank_phrase] at ihl ⊢
    rcases hb.of_append hop hl.nesting_eq_zero with
      ⟨-, more, hleft⟩ | ⟨-, rfl⟩ | ⟨more, hright⟩
    · exact ihl hleft
    · exact Nat.le_refl _
    · have hlt := ihr hright
      rw [Tier.rank_rightPhrase] at hlt
      omega
  | loosen _ hjk ih => exact Nat.le_trans hjk (ih hb)

/-- The operator that joins two phrases is the last one of the loosest tier. -/
theorem splitAt (hl : Derives op.tier.phrase b ls l) (hop : t.kind = .operator op)
    (hr : Derives op.tier.rightPhrase (op = .add) rs r) : SplitAt (ls ++ t :: rs) ls op rs where
  tokens_eq := ⟨t, hop, rfl⟩
  outside := hl.nesting_eq_zero
  operand := hl.exists_getLast
  loosest hb := by
    have hle := (hl.binary hop hr).rank_le_of_binaryAt hb
    rwa [Tier.rank_phrase] at hle
  last {before' op' after'} hb htier := by
    rcases hb.of_append hop hl.nesting_eq_zero with
      ⟨hlt, -⟩ | ⟨rfl, -⟩ | ⟨more, hright⟩
    · exact Nat.le_of_lt hlt
    · exact Nat.le_refl _
    · have hlt := hr.rank_le_of_binaryAt hright
      rw [Tier.rank_rightPhrase, htier] at hlt
      omega

theorem splitAt_or_operand (h : Derives k b ts e) :
    (∃ before op after l r, SplitAt ts before op after ∧ e = .binary op l r ∧
      Derives op.tier.phrase b before l ∧ Derives op.tier.rightPhrase (op = .add) after r) ∨
    Derives .operand b ts e := by
  induction h using tierInduction with
  | operand h => exact .inr h
  | binary op hl hop hr => exact .inl ⟨_, op, _, _, _, hl.splitAt hop hr, rfl, hl, hr⟩
  | loosen _ _ ih => exact ih

end Derives

/-! ## Lists of tokens -/

theorem nesting_eq_of_alike {ts ts' : List Token} (h : List.Forall₂ Token.Alike ts ts') :
    nesting ts = nesting ts' := by
  induction h with
  | nil => rfl
  | cons ht _ ih => simp only [nesting_cons, Token.delta, ht.kind_eq, ih]

theorem nesting_le_of_alike {ts ts' read : List Token} {n : Int}
    (h : List.Forall₂ Token.Alike ts ts') (hn : ∀ read, read <+: ts → nesting read ≤ n)
    (hread : read <+: ts') : nesting read ≤ n := by
  rw [List.prefix_iff_eq_take.1 hread, ← nesting_eq_of_alike (List.forall₂_take _ h)]
  exact hn _ (List.take_prefix _ _)

variable {maxDepth size : Nat} {tokens : List Token} {e : Expr}

/-- Reading from left to right gives the tree that a split at the last operator of the loosest tier
gives.

- With an operator between operands outside all parentheses, the last one of the loosest tier is the
  root. Its operands are what the tokens before and after it are read as, but for the marks of the
  calls on the right: those depend on whether a sign may stand there, and on the places.
- Without one, the tree is a literal, a call, a negated call, or that of the tokens inside one pair
  of parentheses around the whole. -/
theorem ofTokens_eq_split (h : Expr.ofTokens maxDepth size tokens = .ok e) :
    ((∃ before op after, BinaryAt tokens before op after) →
      ∃ before op after l r, SplitAt tokens before op after ∧ e = .binary op l r ∧
        (∀ size', Expr.ofTokens maxDepth size' before = .ok l) ∧
        ∀ after' size', List.Forall₂ Token.Alike after after' →
          ∃ r', Expr.ofTokens maxDepth size' after' = .ok r' ∧ r'.unmarked = r.unmarked) ∧
    ((¬ ∃ before op after, BinaryAt tokens before op after) →
      (∃ x, e = .literal x) ∨ (∃ f a u, e = .call f a u) ∨ (∃ f a u, e = .negation (.call f a u)) ∨
        ∃ opening inside closing, opening.kind = .opening ∧ closing.kind = .closing ∧
          tokens = opening :: (inside ++ [closing]) ∧
          ∀ size', Expr.ofTokens maxDepth size' inside = .ok e) := by
  have hderives := Derives.of_ofTokens h
  have hdepth : ∀ read, read <+: tokens → nesting read ≤ maxDepth :=
    fun read => nesting_le_of_ofTokens h
  refine ⟨fun ⟨before, op, after, hb⟩ => ?_, fun hnone => ?_⟩
  · rcases hderives.splitAt_or_operand with
      ⟨before, op, after, l, r, hsplit, rfl, hl, hr⟩ | hoperand
    · obtain ⟨t, ht, rfl⟩ := hsplit.tokens_eq
      refine ⟨before, op, after, l, r, hsplit, rfl, fun size' => ?_, fun after' size' hafter => ?_⟩
      · refine (hl.loosen (Nat.zero_le _)).ofTokens_eq_of_nesting (fun read hread => ?_) size'
        exact hdepth read (hread.trans (List.prefix_append _ _))
      · -- The right side has other places on its own, so its marks may change.
        obtain ⟨r', hr', hmarks⟩ := (hr.loosen (Nat.zero_le _)).exists_alike Expr.likeness_unmarked
          ⟨fun _ => rfl, fun _ _ => trivial⟩ hafter
        refine ⟨r', hr'.ofTokens_eq_of_nesting (fun read hread => ?_) size', hmarks.symm⟩
        refine nesting_le_of_alike hafter (fun read hread => ?_) hread
        have hle := hdepth (before ++ t :: read)
          ((List.prefix_append_right_inj before).2 (List.cons_prefix_cons.2 ⟨rfl, hread⟩))
        rwa [nesting_append, nesting_cons, hsplit.outside, Token.delta_operator ht, Int.zero_add,
          Int.zero_add] at hle
    · exact absurd hb hoperand.not_binaryAt
  · rcases hderives.splitAt_or_operand with ⟨before, op, after, l, r, hsplit, -⟩ | hoperand
    · exact absurd ⟨before, op, after, hsplit.toBinaryAt⟩ hnone
    · cases hoperand with
      | number _ | signedNumber _ _ => exact .inl ⟨_, rfl⟩
      | call _ _ _ _ _ => exact .inr (.inl ⟨_, _, _, rfl⟩)
      | @signedCall sign _ _ _ _ _ _ _ _ _ _ _ _ _ =>
        cases sign with
        | plus => exact .inr (.inl ⟨_, _, _, rfl⟩)
        | minus => exact .inr (.inr (.inl ⟨_, _, _, rfl⟩))
      | group hopen hinside hclose =>
        refine .inr (.inr (.inr ⟨_, _, _, hopen, hclose, rfl, fun size' => ?_⟩))
        refine hinside.ofTokens_eq_of_nesting (fun read hread => ?_) size'
        have hle := hdepth _ (List.cons_prefix_cons.2 ⟨rfl, hread.trans (List.prefix_append _ _)⟩)
        rw [nesting_cons, Token.delta_opening hopen] at hle
        omega

/-- The first and the third operator are signs. The second binds as loosely as the one in front of
`cos`, which comes last. -/
theorem ofTokens_split_before_cos :
    Expr.ofTokens 1 21 (tokenize "-2+-sin(30)-cos(60)^2".toList) =
      .ok (.binary .subtract
        (.binary .add (.literal (-2)) (.negation (.call .sin (.literal 30) (some 4))))
        (.binary .power (.call .cos (.literal 60) (some 12)) (.literal 2))) ∧
    BinaryAt (tokenize "-2+-sin(30)-cos(60)^2".toList) (tokenize "-2".toList) .add
      (Token.inOrder 3 (lexemes "-sin(30)-cos(60)^2".toList)) ∧
    ∃ before op after l r,
      SplitAt (tokenize "-2+-sin(30)-cos(60)^2".toList) before op after ∧
      Expr.binary .subtract
        (.binary .add (.literal (-2)) (.negation (.call .sin (.literal 30) (some 4))))
        (.binary .power (.call .cos (.literal 60) (some 12)) (.literal 2)) = .binary op l r ∧
      (∀ size', Expr.ofTokens 1 size' before = .ok l) ∧
      ∀ after' size', List.Forall₂ Token.Alike after after' →
        ∃ r', Expr.ofTokens 1 size' after' = .ok r' ∧ r'.unmarked = r.unmarked := by
  have hread : Expr.ofTokens 1 21 (tokenize "-2+-sin(30)-cos(60)^2".toList) =
      .ok (.binary .subtract
        (.binary .add (.literal (-2)) (.negation (.call .sin (.literal 30) (some 4))))
        (.binary .power (.call .cos (.literal 60) (some 12)) (.literal 2))) := by
    decide +kernel
  have hplus : BinaryAt (tokenize "-2+-sin(30)-cos(60)^2".toList) (tokenize "-2".toList) .add
      (Token.inOrder 3 (lexemes "-sin(30)-cos(60)^2".toList)) :=
    { tokens_eq := ⟨.ofText 2 ['+'], rfl, by decide +kernel⟩
      outside := by decide +kernel
      operand := ⟨.ofText 1 ['2'], by decide +kernel, .inl ⟨_, rfl⟩⟩ }
  exact ⟨hread, hplus, (ofTokens_eq_split hread).1 ⟨_, _, _, hplus⟩⟩

/-! ## Where a sign may stand -/

/-- An operand without a sign is due, or one whose sign has been read. -/
def Next.Unsigned (next : Next) : Prop :=
  next = .operand false ∨ ∃ negative, next = .signed negative

/-- Behind the tokens a sign may stand in front of a number. -/
def SignFits (before : List Token) : Prop :=
  before = [] ∨ ∃ front t, before = front ++ [t] ∧
    (t.kind = .opening ∨ t.kind = .operator .add ∧ ∃ u ∈ front.getLast?, u.EndsOperand)

namespace Reading

variable {r : Reading} {t : Token} {before after : List Token} {levels : List Level}
  {waiting : List Waiting} {next : Next} {b : Bool}

/-! ## In front of an operand -/

theorem Step.kind_of_operand (h : Step r t ⟨levels, waiting, .operand b⟩) :
    t.kind = .opening ∨ ∃ op, t.kind = .operator op := by
  cases h with
  | group hk | argument hk => exact .inl hk
  | operator hk => exact .inr ⟨_, hk⟩

theorem Steps.not_endsOperand (h : Steps start before ⟨levels, waiting, .operand b⟩) :
    ∀ t ∈ before.getLast?, ¬ t.EndsOperand := by
  rcases List.eq_nil_or_concat' before with rfl | ⟨front, t, rfl⟩
  · simp
  · obtain ⟨u, -, ht⟩ := h.exists_last
    simp only [List.getLast?_concat, Option.mem_def, Option.some.injEq, forall_eq']
    rcases ht.kind_of_operand with hk | ⟨op, hk⟩
    · rintro (⟨x, hx⟩ | hx) <;> rw [hk] at hx <;> cases hx
    · exact Token.not_endsOperand_operator hk

/-! ## Signs -/

/-- Where a reading takes a sign, a sign fits. -/
theorem signFits_of_steps (h : Steps start before ⟨levels, waiting, .operand true⟩) :
    SignFits before := by
  rcases List.eq_nil_or_concat' before with rfl | ⟨front, t, rfl⟩
  · exact .inl rfl
  · obtain ⟨u, hu, ht⟩ := h.exists_last
    refine .inr ⟨front, t, rfl, ?_⟩
    generalize hb : true = b at ht
    cases ht with
    | group hk | argument hk => exact .inl hk
    | operator hk =>
      obtain rfl := of_decide_eq_true hb.symm
      exact .inr ⟨hk, hu.exists_getLast fun _ => by simp [start]⟩

/-- Where an operand without a sign is due, or a sign has just been read, none fits. -/
theorem not_signFits_of_steps (h : Steps start before ⟨levels, waiting, next⟩)
    (hnext : next.Unsigned) : ¬ SignFits before := by
  rintro (rfl | ⟨front, t, rfl, hfits⟩)
  · cases h
    rcases hnext with hnext | ⟨negative, hnext⟩ <;> cases hnext
  · obtain ⟨u, hu, ht⟩ := h.exists_last
    rcases hnext with rfl | ⟨negative, rfl⟩
    · generalize hb : false = b at ht
      cases ht with
      | group _ | argument _ => cases hb
      | operator hk =>
        rcases hfits with hopen | ⟨hplus, -⟩
        · rw [hk] at hopen
          cases hopen
        · rw [hk] at hplus
          cases hplus
          cases hb
    · cases ht with
      | sign hk =>
        rcases hfits with hopen | ⟨-, v, hv, hends⟩
        · rw [hk] at hopen
          cases hopen
        · exact hu.not_endsOperand v hv hends

theorem not_steps_of_unsigned {op : Operator} {s : Reading} (hnext : next.Unsigned)
    (hop : t.kind = .operator op) : ¬ Steps ⟨levels, waiting, next⟩ (t :: after) s := by
  intro h
  cases h with
  | cons ht _ =>
    rcases hnext with rfl | ⟨negative, rfl⟩
    · cases ht with
      | number hk | name hk _ | group hk =>
        rw [hop] at hk
        cases hk
    · cases ht with
      | signedNumber hk | signedName hk _ =>
        rw [hop] at hk
        cases hk

end Reading

end DeskCalculator
