import DeskCalculator.Proofs.Reading.Splits

/-!
# How large and how deep an expression can be

The limits on a text are limits on its tree, and so on every recursion over the tree.

**Theorem (`parse_bounds`).** An expression has at most as many nodes as its text has characters. On
each way down from its root there are at most as many calls as the depth limit allows, and at most
three turns to a right operand for each level of parentheses. So only left operands can be nested
deeper than a multiple of the depth limit.

Each node has a token of its own (`Derives.size_le`). A turn to the right leads from a phrase to one
of a tighter kind, so there are at most three of them before a parenthesis opens the next level; and
every call has parentheses (`Derives.bounded`).
-/

namespace DeskCalculator

namespace Expr

/-! ## Paths -/

/-- The number of nodes. -/
def size : Expr → Nat
  | literal _ => 1
  | binary _ left right => left.size + right.size + 1
  | call _ argument _ => argument.size + 1
  | negation operand => operand.size + 1

/-- The node is a call. -/
def isCall : Expr → Bool
  | call _ _ _ => true
  | literal _ | binary _ _ _ | negation _ => false

/-- A step from a node to one below it. -/
inductive Turn where
  | left
  | right
  | argument
  | operand
deriving Repr, DecidableEq

/-- `Path e turns nodes`: from `e` the turns lead down, through `e` and the other nodes. -/
inductive Path : Expr → List Turn → List Expr → Prop
  | here {e} : Path e [] [e]
  | left {op l r turns nodes} : Path l turns nodes →
      Path (binary op l r) (.left :: turns) (binary op l r :: nodes)
  | right {op l r turns nodes} : Path r turns nodes →
      Path (binary op l r) (.right :: turns) (binary op l r :: nodes)
  | argument {f a u turns nodes} : Path a turns nodes →
      Path (call f a u) (.argument :: turns) (call f a u :: nodes)
  | operand {o turns nodes} : Path o turns nodes →
      Path (negation o) (.operand :: turns) (negation o :: nodes)

variable {e l r : Expr} {turns : List Turn} {nodes : List Expr} {calls rights : Nat}

theorem size_pos (e : Expr) : 0 < e.size := by
  cases e <;> simp [size]

theorem Path.length_le_size (h : e.Path turns nodes) : nodes.length ≤ e.size := by
  induction h with
  | @here e => exact e.size_pos
  | left _ ih | right _ ih | argument _ ih | operand _ ih =>
    simp only [List.length_cons, size]
    omega

theorem Path.count_argument_le (h : e.Path turns nodes) :
    turns.count .argument ≤ nodes.countP isCall := by
  induction h with
  | here => simp
  | left _ ih | right _ ih | operand _ ih => simpa [isCall] using ih
  | argument _ ih =>
    rw [List.count_cons_self, List.countP_cons_of_pos rfl]
    exact Nat.succ_le_succ ih

theorem countP_ne_left (turns : List Turn) :
    turns.countP (· ≠ .left) =
      turns.count .right + turns.count .argument + turns.count .operand := by
  induction turns with
  | nil => rfl
  | cons turn turns ih =>
    rw [List.countP_cons, ih]
    simp only [List.count_cons]
    cases turn <;> simp <;> omega

/-- Every path meets at most `calls` calls, passes at most as many signs, and turns to the right at
most `rights` times. -/
def Shallow (calls rights : Nat) (e : Expr) : Prop :=
  ∀ turns nodes, e.Path turns nodes →
    nodes.countP isCall ≤ calls ∧ turns.count .operand ≤ calls ∧ turns.count .right ≤ rights

theorem Shallow.mono {calls' rights' : Nat} (h : e.Shallow calls rights) (hcalls : calls ≤ calls')
    (hrights : rights ≤ rights') : e.Shallow calls' rights' := by
  intro turns nodes hpath
  obtain ⟨hc, ho, hr⟩ := h turns nodes hpath
  exact ⟨Nat.le_trans hc hcalls, Nat.le_trans ho hcalls, Nat.le_trans hr hrights⟩

theorem shallow_literal (x : Float) : (literal x).Shallow calls rights := by
  intro turns nodes hpath
  cases hpath
  simp [isCall]

/-- An operator adds a turn to the paths into its right operand. -/
theorem Shallow.binary (op : Operator) (hl : l.Shallow calls (rights + 1))
    (hr : r.Shallow calls rights) : (binary op l r).Shallow calls (rights + 1) := by
  intro turns nodes hpath
  cases hpath with
  | here => simp [isCall]
  | left hpath => simpa [isCall] using hl _ _ hpath
  | right hpath => simpa [isCall] using hr _ _ hpath

theorem Shallow.call (f : Function) (unsignedAt : Option Nat) (h : e.Shallow calls rights) :
    (call f e unsignedAt).Shallow (calls + 1) rights := by
  intro turns nodes hpath
  cases hpath with
  | here => simp [isCall]
  | argument hpath =>
    obtain ⟨hc, ho, hr⟩ := h _ _ hpath
    simp only [List.countP_cons, isCall, List.count_cons]
    exact ⟨by simpa using hc, by simpa using Nat.le_succ_of_le ho, by simpa using hr⟩

theorem Shallow.negation_call (f : Function) (unsignedAt : Option Nat)
    (h : e.Shallow calls rights) :
    (negation (.call f e unsignedAt)).Shallow (calls + 1) rights := by
  intro turns nodes hpath
  cases hpath with
  | here => simp [isCall]
  | operand hpath =>
    cases hpath with
    | here => simp [isCall]
    | argument hpath =>
      obtain ⟨hc, ho, hr⟩ := h _ _ hpath
      simp only [List.countP_cons, isCall, List.count_cons]
      exact ⟨by simpa using hc, by simpa using ho, by simpa using hr⟩

end Expr

/-! ## Phrases -/

/-- Each node of a phrase has a token of its own. -/
theorem Derives.size_le {k : Phrase} {b : Bool} {ts : List Token} {e : Expr}
    (h : Derives k b ts e) : e.size ≤ ts.length := by
  induction h with
  | ofProduct _ ih | ofPower _ ih | ofOperand _ ih => exact ih
  | add _ _ _ ihl ihr | subtract _ _ _ ihl ihr | multiply _ _ _ ihl ihr | divide _ _ _ ihl ihr
  | power _ _ _ ihl ihr =>
    simp only [Expr.size, List.length_append, List.length_cons]
    omega
  | number _ | signedNumber _ _ => simp [Expr.size]
  | group _ _ _ ih | call _ _ _ _ _ ih =>
    simp only [Expr.size, List.length_append, List.length_cons]
    omega
  | @signedCall sign _ _ _ _ _ _ _ _ _ _ _ _ _ ih =>
    cases sign <;>
    · simp only [Sign.applyToCall, Expr.size, List.length_append, List.length_cons]
      omega

/-- `Bounded k ts e`: with at most `depth` parentheses open at a time among the tokens `ts`, the
paths of `e` meet at most that many calls. They turn to the right three times on each level, and
less on the outermost one if the phrase is not of the loosest kind. -/
def Bounded (k : Phrase) (ts : List Token) (e : Expr) : Prop :=
  ∀ depth : Nat, (∀ read, read <+: ts → nesting read ≤ depth) →
    e.Shallow depth (3 * depth + (3 - k.rank))

namespace Bounded

variable {ts ls rs : List Token} {t opening : Token} {e l r : Expr} {f : Function}

theorem loosen {j k : Phrase} (h : Bounded k ts e) (hjk : j.rank ≤ k.rank) : Bounded j ts e := by
  intro depth hdepth
  exact (h depth hdepth).mono (Nat.le_refl _) (by omega)

/-- A turn to the right operand leads to a tighter phrase. -/
theorem binary (op : Operator) (hls : nesting ls = 0) (hop : t.kind = .operator op)
    (hl : Bounded op.tier.phrase ls l) (hr : Bounded op.tier.rightPhrase rs r) :
    Bounded op.tier.phrase (ls ++ t :: rs) (.binary op l r) := by
  intro depth hdepth
  have hleft := hl depth fun read hread => hdepth read (hread.trans (List.prefix_append _ _))
  have hright := hr depth fun read hread => by
    have hle := hdepth (ls ++ t :: read)
      ((List.prefix_append_right_inj ls).2 (List.cons_prefix_cons.2 ⟨rfl, hread⟩))
    rwa [nesting_append, nesting_cons, hls, Token.delta_operator hop, Int.zero_add,
      Int.zero_add] at hle
  have hrank := Tier.rank_lt_operand op.tier
  rw [Tier.rank_phrase] at hleft ⊢
  rw [Tier.rank_rightPhrase] at hright
  simp only [Phrase.rank] at hrank
  rw [show 3 * depth + (3 - op.tier.rank) = 3 * depth + (3 - (op.tier.rank + 1)) + 1 by omega]
    at hleft ⊢
  exact hleft.binary op hright

theorem inside (front : List Token) {after : List Token} {depth : Nat} (h : Bounded .sum ts e)
    (hfront : nesting front = 0) (hopen : opening.kind = .opening)
    (hdepth : ∀ read, read <+: front ++ opening :: (ts ++ after) → nesting read ≤ depth) :
    ∃ less, depth = less + 1 ∧ e.Shallow less (3 * depth) := by
  have hread : ∀ read, read <+: ts → nesting read + 1 ≤ depth := by
    intro read hread
    have hle := hdepth (front ++ opening :: read) ((List.prefix_append_right_inj front).2
      (List.cons_prefix_cons.2 ⟨rfl, hread.trans (List.prefix_append _ _)⟩))
    rw [nesting_append, nesting_cons, hfront, Token.delta_opening hopen] at hle
    omega
  have hpos := hread [] (List.nil_prefix)
  simp only [nesting_nil] at hpos
  obtain ⟨less, rfl⟩ : ∃ less, depth = less + 1 := ⟨depth - 1, by omega⟩
  refine ⟨less, rfl, ?_⟩
  exact h less fun read hprefix => by
    have hle := hread read hprefix
    omega

end Bounded

/-- The paths of a phrase are bounded by the depth of its parentheses. -/
theorem Derives.bounded {k : Phrase} {b : Bool} {ts : List Token} {e : Expr}
    (h : Derives k b ts e) : Bounded k ts e := by
  induction h with
  | ofProduct _ ih | ofPower _ ih | ofOperand _ ih => exact ih.loosen (by decide)
  | add hl hop _ ihl ihr => exact .binary .add hl.nesting_eq_zero hop ihl ihr
  | subtract hl hop _ ihl ihr => exact .binary .subtract hl.nesting_eq_zero hop ihl ihr
  | multiply hl hop _ ihl ihr => exact .binary .multiply hl.nesting_eq_zero hop ihl ihr
  | divide hl hop _ ihl ihr => exact .binary .divide hl.nesting_eq_zero hop ihl ihr
  | power hl hop _ ihl ihr => exact .binary .power hl.nesting_eq_zero hop ihl ihr
  | number _ | signedNumber _ _ => exact fun _ _ => Expr.shallow_literal _
  | group hopen _ _ ih =>
    intro depth hdepth
    obtain ⟨less, rfl, hinside⟩ := ih.inside [] rfl hopen hdepth
    exact hinside.mono (Nat.le_succ _) (Nat.le_refl _)
  | @call b name _ _ _ _ _ hname _ hopen _ _ ih =>
    intro depth hdepth
    obtain ⟨less, rfl, hinside⟩ :=
      ih.inside [name] (by simp [Token.delta_name hname]) hopen hdepth
    exact hinside.call _ _
  | @signedCall sign s name _ _ _ _ _ hs hname _ hopen _ _ ih =>
    intro depth hdepth
    obtain ⟨less, rfl, hinside⟩ := ih.inside [s, name]
      (by simp [Token.delta_operator hs, Token.delta_name hname]) hopen hdepth
    cases sign with
    | plus => exact hinside.call _ _
    | minus => exact hinside.negation_call _ _

/-! ## Texts -/

variable {limits : Limits} {s : String} {e : Expr}

/-- The limits on a text bound its tree.

- There are at most as many nodes as characters.
- On every path from the root there are at most as many calls as the depth limit, and at most three
  turns to the right for it and for each level that it allows.
- A path has at most five turns that are not to the left for each level, and three more. As a whole
  it is no longer than the text. -/
theorem parse_bounds (h : parse limits s = .ok e) :
    e.size ≤ (Text.normalize s.toList).length ∧
    (Text.normalize s.toList).length ≤ limits.maxLength ∧
    ∀ turns nodes, e.Path turns nodes →
      nodes.countP Expr.isCall ≤ limits.maxDepth ∧
      turns.count .right ≤ 3 * (limits.maxDepth + 1) ∧
      turns.countP (· ≠ .left) ≤ 5 * limits.maxDepth + 3 ∧
      nodes.length ≤ (Text.normalize s.toList).length := by
  have hderives := Derives.of_parse h
  have hsize := Nat.le_trans hderives.size_le (length_tokenize_le _)
  refine ⟨hsize, length_le_of_parse h, fun turns nodes hpath => ?_⟩
  obtain ⟨hcalls, hoperands, hrights⟩ :=
    hderives.bounded limits.maxDepth (fun _ hread => nesting_le_of_parse h hread) _ _ hpath
  have harguments := hpath.count_argument_le
  simp only [Phrase.rank] at hrights
  refine ⟨hcalls, by omega, ?_, Nat.le_trans hpath.length_le_size hsize⟩
  rw [Expr.countP_ne_left]
  omega

/-- With one level of parentheses the way down meets one call and turns to the right six times at
most, as on the way to the 7 here. -/
theorem six_turns_to_the_right :
    ∃ e nodes, parse ⟨18, 1⟩ "1+2*3^sin(4-5*6^7)" = .ok e ∧
      e.Path [.right, .right, .right, .argument, .right, .right, .right] nodes ∧
      e.size ≤ 18 ∧ nodes.countP Expr.isCall ≤ 1 ∧ 6 ≤ 3 * (1 + 1) := by
  obtain ⟨e, hparse, nodes, hpath⟩ : ∃ e, parse ⟨18, 1⟩ "1+2*3^sin(4-5*6^7)" = .ok e ∧
      ∃ nodes, e.Path [.right, .right, .right, .argument, .right, .right, .right] nodes :=
    ⟨.binary .add (.literal 1) (.binary .multiply (.literal 2) (.binary .power (.literal 3)
        (.call .sin (.binary .subtract (.literal 4) (.binary .multiply (.literal 5)
          (.binary .power (.literal 6) (.literal 7)))) (some 6)))),
      by decide +kernel, _, .right (.right (.right (.argument (.right (.right (.right .here))))))⟩
  obtain ⟨hsize, hlength, hpaths⟩ := parse_bounds hparse
  obtain ⟨hcalls, hrights, -, -⟩ := hpaths _ _ hpath
  exact ⟨e, nodes, hparse, hpath, Nat.le_trans hsize hlength, hcalls, hrights⟩

end DeskCalculator
