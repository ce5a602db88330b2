import DeskCalculator.Proofs.Arithmetic.Nearest
import DeskCalculator.Proofs.Token.Shapes

/-!
# Cutting a text into tokens

**Shapes** (`Token.Shape`). What a token is written with, what it means, and why it does not go on
into the text behind it.

**Theorem (`tokenize_partition`).** Every text is cut into tokens of these shapes, without a gap and
without an empty token. A token stands at the byte where the tokens before it end. Its shape is that
of one kind only (`Token.Shape.kind_eq`).
-/

namespace DeskCalculator

open Lexeme

/-! ## Shapes -/

/-- Of the text `run ++ rest`, `run` is the longest part at the start that has only characters with
the property, and it is not empty. -/
structure LongestRun (p : Char → Bool) (run rest : List Char) : Prop where
  ne_nil : run ≠ []
  all : ∀ c ∈ run, p c
  stops : ∀ c ∈ rest.head?, p c = false

/-- The exponent in front of `rest`: an `e` and all digits right behind it, if there are any. -/
inductive LongestExponent : List Char → List Char → Prop
  | none {rest} : (∀ d r, rest = 'e' :: d :: r → d.isDigit = false) → LongestExponent [] rest
  | some {digits rest} : LongestRun Char.isDigit digits rest → LongestExponent ('e' :: digits) rest

/-- `Shape rest kind text`: in front of `rest`, a token is written `text` and has the kind `kind`.

- It is a run of digits and points with the exponent behind it. The run decides whether this is a
  number. If so, it has the value of the double nearest to what is written.
- It is a run of letters.
- It is any other character. Operators and parentheses have a meaning. -/
inductive Token.Shape (rest : List Char) : TokenKind → List Char → Prop
  | number {run exponent x} : LongestRun isNumeral run (exponent ++ rest) →
      LongestExponent exponent rest → Decimal.IsNumber run →
      Binary64.Nearest (Decimal.ofRun run exponent).exact x →
      Shape rest (.number x) (run ++ exponent)
  | malformed {run exponent} : LongestRun isNumeral run (exponent ++ rest) →
      LongestExponent exponent rest → ¬ Decimal.IsNumber run → Shape rest .stray (run ++ exponent)
  | name {run} : LongestRun isLetter run rest → Shape rest .name run
  | operator (op : Operator) : Shape rest (.operator op) [op.symbol]
  | opening : Shape rest .opening ['(']
  | closing : Shape rest .closing [')']
  | stray {c} : isNumeral c = false → isLetter c = false → c ≠ '(' → c ≠ ')' →
      (∀ op : Operator, c ≠ op.symbol) → Shape rest .stray [c]

/-! ## The first lexeme -/

variable {p : Char → Bool} {s run exponent rest : List Char} {c : Char}

theorem longestRun_takeWhile (h : s.takeWhile p ≠ []) :
    LongestRun p (s.takeWhile p) (s.dropWhile p) where
  ne_nil := h
  all _ := List.mem_takeWhile_imp
  stops c hc := by
    have hstop := List.head?_dropWhile_not p s
    rw [Option.mem_def.1 hc] at hstop
    simpa using hstop

theorem LongestExponent.isExponent (h : LongestExponent exponent rest) :
    Decimal.IsExponent exponent := by
  cases h with
  | none _ => exact .inl rfl
  | some h => exact .inr ⟨_, rfl, h.ne_nil, h.all⟩

theorem longestExponent_exponent (s : List Char) :
    LongestExponent (Lexeme.exponent s).1 (Lexeme.exponent s).2 := by
  unfold Lexeme.exponent
  split
  next d r =>
    split
    next hd =>
      have hrun := longestRun_takeWhile (p := Char.isDigit) (s := d :: r) (by simp [hd])
      rw [List.takeWhile_cons_of_pos hd, List.dropWhile_cons_of_pos hd] at hrun
      exact .some hrun
    next hd =>
      refine .none fun d' r' h => ?_
      cases h
      exact Bool.eq_false_iff.2 hd
  next h => exact .none fun d r hs => absurd hs (h d r)

theorem ofNumeral_run (hrun : ∀ c ∈ run, isNumeral c) (hexp : LongestExponent exponent rest) :
    TokenKind.ofNumeral (run ++ exponent) =
      if Decimal.IsNumber run then .number (Decimal.ofRun run exponent).toFloat else .stray := by
  rw [TokenKind.ofNumeral, Decimal.ofChars?_run hrun hexp.isExponent]
  by_cases hnumber : Decimal.IsNumber run
  · rw [if_pos hnumber, if_pos hnumber]
  · rw [if_neg hnumber, if_neg hnumber]

/-- A number is a run of digits and points with an exponent, or nothing at all. -/
theorem shape_number (hc : isNumeral c) (r : List Char) :
    Token.Shape (number (c :: r)).2 (.ofNumeral (number (c :: r)).1) (number (c :: r)).1 := by
  have hrun := longestRun_takeWhile (p := isNumeral) (s := c :: r) (by simp [hc])
  have hexp := longestExponent_exponent ((c :: r).dropWhile isNumeral)
  rw [← exponent_append ((c :: r).dropWhile isNumeral)] at hrun
  rw [number, ofNumeral_run hrun.all hexp]
  by_cases hnumber : Decimal.IsNumber ((c :: r).takeWhile isNumeral)
  · rw [if_pos hnumber]
    exact .number hrun hexp hnumber (Decimal.nearest_toFloat _)
  · rw [if_neg hnumber]
    exact .malformed hrun hexp hnumber

theorem shape_mark (hn : isNumeral c = false) (hl : isLetter c = false) (rest : List Char) :
    Token.Shape rest (.ofMark c) [c] := by
  unfold TokenKind.ofMark
  split
  next hopen => exact hopen ▸ .opening
  next hopen =>
    split
    next hclose => exact hclose ▸ .closing
    next hclose =>
      split
      next op hop => exact Operator.symbol_of_ofChar? hop ▸ .operator op
      next hnone =>
        refine .stray hn hl hopen hclose fun op hop => ?_
        rw [hop, Operator.ofChar?_symbol] at hnone
        cases hnone

/-- The first lexeme of a text has one of the shapes. -/
theorem shape_first (c : Char) (r : List Char) :
    Token.Shape (first c r).2 (.ofText (first c r).1) (first c r).1 := by
  obtain ⟨l, hl⟩ := exists_cons_of_first c r
  have hkind : TokenKind.ofText (first c r).1 = if isNumeral c then .ofNumeral (first c r).1
      else if isLetter c then .name else .ofMark c := by
    rw [hl]
    rfl
  rw [hkind]
  unfold first
  split
  next hn => exact shape_number hn r
  next hn =>
    split
    next hl => exact .name (longestRun_takeWhile (by simp [hl]))
    next hl => exact shape_mark (Bool.eq_false_iff.2 hn) (Bool.eq_false_iff.2 hl) r

/-! ## The kind of a shape -/

variable {kind : TokenKind} {text : List Char}

theorem ofText_run (hrun : LongestRun isNumeral run (exponent ++ rest)) :
    TokenKind.ofText (run ++ exponent) = .ofNumeral (run ++ exponent) := by
  obtain ⟨c, r, rfl⟩ := List.exists_cons_of_ne_nil hrun.ne_nil
  rw [List.cons_append, TokenKind.ofText, if_pos (hrun.all c List.mem_cons_self)]

theorem isNumeral_of_isLetter (h : isLetter c) : isNumeral c = false := by
  have hpoint : c ≠ '.' := by
    rintro rfl
    exact absurd h (by decide)
  have hdigit : c.isDigit = false := by
    simp only [isLetter, Char.isAlpha, Char.isUpper, Char.isLower, Char.isDigit] at h ⊢
    grind
  rw [isNumeral, hdigit, beq_eq_false_iff_ne.2 hpoint, Bool.or_false]

theorem ofText_letters (hrun : LongestRun isLetter run rest) : TokenKind.ofText run = .name := by
  obtain ⟨c, r, rfl⟩ := List.exists_cons_of_ne_nil hrun.ne_nil
  have hc : isLetter c := hrun.all c List.mem_cons_self
  simp [TokenKind.ofText, isNumeral_of_isLetter hc, hc]

theorem ofMark_stray (hopen : c ≠ '(') (hclose : c ≠ ')') (hop : ∀ op : Operator, c ≠ op.symbol) :
    TokenKind.ofMark c = .stray := by
  have hnone : Operator.ofChar? c = none := by
    refine Option.eq_none_iff_forall_ne_some.2 fun op h => ?_
    exact hop op (Operator.symbol_of_ofChar? h).symm
  rw [TokenKind.ofMark, if_neg hopen, if_neg hclose, hnone]

/-- A shape is that of one kind only, since no two doubles are nearest to a number. -/
theorem Token.Shape.kind_eq (h : Token.Shape rest kind text) : kind = .ofText text := by
  cases h with
  | number hrun hexp hnumber hx =>
    rw [ofText_run hrun, ofNumeral_run hrun.all hexp, if_pos hnumber]
    exact congrArg _ (hx.unique (Decimal.nearest_toFloat _))
  | malformed hrun hexp hnumber =>
    rw [ofText_run hrun, ofNumeral_run hrun.all hexp, if_neg hnumber]
  | name hrun => exact (ofText_letters hrun).symm
  | operator op => cases op <;> rfl
  | opening => rfl
  | closing => rfl
  | stray hn hl hopen hclose hop =>
    simp [TokenKind.ofText, hn, hl, ofMark_stray hopen hclose hop]

/-! ## All tokens -/

theorem exists_first_of_append {xs ys : List (List Char)} {l : List Char}
    (h : lexemes s = xs ++ l :: ys) : ∃ c r, first c r = (l, ys.flatten) := by
  have hrest := lexemes_flatten_of_append h
  cases htext : (l :: ys).flatten with
  | nil =>
    rw [htext, lexemes_nil] at hrest
    cases hrest
  | cons c r =>
    rw [htext, lexemes_cons] at hrest
    obtain ⟨hfirst, hys⟩ := List.cons.inj hrest
    refine ⟨c, r, Prod.ext hfirst ?_⟩
    rw [← hys, flatten_lexemes]

/-- Every text is cut into tokens from left to right, each as long as possible.

- There are at most as many tokens as characters, and their texts are the text.
- No token is empty. It stands at the byte where the texts of the tokens before it end, and with
  what follows it has one of the shapes, which is that of no other kind. -/
theorem tokenize_partition (s : List Char) :
    (tokenize s).length ≤ s.length ∧
    ((tokenize s).map Token.text).flatten = s ∧
    ∀ before t after, tokenize s = before ++ t :: after →
      t.text ≠ [] ∧
      t.position = Text.byteLength (before.map Token.text).flatten ∧
      Token.Shape (after.map Token.text).flatten t.kind t.text ∧
      ∀ kind, Token.Shape (after.map Token.text).flatten kind t.text → kind = t.kind := by
  refine ⟨length_tokenize_le s, flatten_text_tokenize s, fun before t after h => ?_⟩
  have hlexemes : lexemes s = before.map Token.text ++ t.text :: after.map Token.text := by
    rw [← Token.map_text_inOrder 0 (lexemes s), ← tokenize, h]
    simp
  have hmem : t ∈ tokenize s := by simp [h]
  obtain ⟨c, r, hfirst⟩ := exists_first_of_append hlexemes
  have hshape := shape_first c r
  have hne := first_ne_nil c r
  rw [hfirst] at hne hshape
  rw [← Token.kind_of_mem_inOrder hmem] at hshape
  refine ⟨hne, position_of_tokenize_eq h, hshape, fun kind hkind => ?_⟩
  rw [hkind.kind_eq, hshape.kind_eq]

example : (tokenize "2e3.5e*1.2.3".toList).map Token.text =
    ["2e3".toList, ".5".toList, "e".toList, "*".toList, "1.2.3".toList] := by
  decide +kernel

end DeskCalculator
