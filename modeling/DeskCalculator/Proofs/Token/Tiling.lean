import DeskCalculator.Token
import Mathlib.Data.List.TakeWhile

/-!
# Tokens tile their text

The tokens of a text stand side by side and none of them is empty. So there are at most as many
tokens as characters (`length_tokenize_le`), and a token stands at the byte where the texts of the
tokens before it end (`position_of_tokenize_eq`). The tokens stand at different places, so a place
tells which of them are in front of it (`takeWhile_position_ne`).

**Nesting** (`nesting`). How many parentheses are open after some tokens: the opening ones less the
closing ones. The count is an integer, since nothing keeps a list of tokens from closing what it
never opened.

**Seams** (`Seam`). Where two texts meet, a lexeme may go on from the one into the other only if
numerals or letters stand on both sides. Everywhere else is a seam.

**Theorem (`lexemes_append`, `tokenize_append`).** At a seam the lexemes of two texts stand one
after the other, and so do the tokens, those of the second text moved behind the bytes of the first.

**Theorem (`lexemes_flatten_of_append`).** The lexemes from some point on, joined, have these
lexemes again. For the lexemes up to that point this needs a seam (`lexemes_eq_of_append`).
-/

namespace DeskCalculator

/-! ## Lengths and positions -/

theorem length_lexemes_le (s : List Char) : (lexemes s).length ≤ s.length := by
  fun_induction lexemes s with
  | case1 => exact Nat.le_refl _
  | case2 c r ih =>
    have hlt := Lexeme.length_first_lt c r
    simp only [List.length_cons] at hlt ⊢
    omega

theorem lexemes_cons_mark {c : Char} (hn : Lexeme.isNumeral c = false)
    (hl : Lexeme.isLetter c = false) (s : List Char) : lexemes (c :: s) = [c] :: lexemes s := by
  simp [lexemes_cons, Lexeme.first, hn, hl]

namespace Token

theorem length_inOrder (position : Nat) (texts : List (List Char)) :
    (inOrder position texts).length = texts.length := by
  rw [← List.length_map (f := text), map_text_inOrder]

theorem kind_of_mem_inOrder {place : Nat} {texts : List (List Char)} {t : Token}
    (h : t ∈ inOrder place texts) : t.kind = .ofText t.text := by
  induction texts generalizing place with
  | nil => cases h
  | cons text texts ih =>
    rcases List.mem_cons.1 h with rfl | h
    · rfl
    · exact ih h

/-- A token stands behind the texts of the tokens before it. -/
theorem position_of_inOrder_eq {position : Nat} {texts : List (List Char)}
    {before after : List Token} {t : Token} (h : inOrder position texts = before ++ t :: after) :
    t.position = position + Text.byteLength (before.map text).flatten := by
  induction before generalizing position texts with
  | nil =>
    cases texts with
    | nil => cases h
    | cons text texts =>
      cases h
      rfl
  | cons u before ih =>
    cases texts with
    | nil => cases h
    | cons text texts =>
      simp only [inOrder_cons, List.cons_append, List.cons.injEq] at h
      obtain ⟨rfl, h⟩ := h
      rw [ih h]
      simp [ofText, Nat.add_assoc]

end Token

theorem length_tokenize_le (s : List Char) : (tokenize s).length ≤ s.length := by
  rw [tokenize, Token.length_inOrder]
  exact length_lexemes_le s

/-- A token of a text stands at the byte where the tokens before it end. -/
theorem position_of_tokenize_eq {s : List Char} {before after : List Token} {t : Token}
    (h : tokenize s = before ++ t :: after) :
    t.position = Text.byteLength (before.map Token.text).flatten := by
  rw [Token.position_of_inOrder_eq h, Nat.zero_add]

/-! ## Open parentheses -/

/-- What a token adds to the number of open parentheses. -/
def Token.delta (t : Token) : Int :=
  match t.kind with
  | .opening => 1
  | .closing => -1
  | .number _ | .name | .operator _ | .stray => 0

/-- The opening parentheses among the tokens, less the closing ones. -/
def nesting : List Token → Int
  | [] => 0
  | t :: tokens => t.delta + nesting tokens

section Nesting

variable {t : Token} {tokens : List Token}

@[simp] theorem nesting_nil : nesting [] = 0 := rfl

@[simp] theorem nesting_cons (t : Token) (tokens : List Token) :
    nesting (t :: tokens) = t.delta + nesting tokens := rfl

@[simp] theorem nesting_append (s t : List Token) : nesting (s ++ t) = nesting s + nesting t := by
  induction s with
  | nil => simp
  | cons u s ih => simp [ih, Int.add_assoc]

theorem Token.delta_opening (h : t.kind = .opening) : t.delta = 1 := by
  simp [delta, h]

theorem Token.delta_closing (h : t.kind = .closing) : t.delta = -1 := by
  simp [delta, h]

theorem Token.delta_operator {op : Operator} (h : t.kind = .operator op) : t.delta = 0 := by
  simp [delta, h]

theorem Token.delta_number {x : Float} (h : t.kind = .number x) : t.delta = 0 := by
  simp [delta, h]

theorem Token.delta_name (h : t.kind = .name) : t.delta = 0 := by
  simp [delta, h]

end Nesting

/-! ## Places -/

theorem Text.byteLength_pos {s : List Char} (h : s ≠ []) : 0 < Text.byteLength s := by
  cases s with
  | nil => exact absurd rfl h
  | cons c s =>
    have hc := c.utf8Size_pos
    simp only [byteLength_cons]
    omega

theorem ne_nil_of_mem_lexemes {s l : List Char} (h : l ∈ lexemes s) : l ≠ [] := by
  fun_induction lexemes s with
  | case1 => cases h
  | case2 c r ih =>
    rcases List.mem_cons.1 h with rfl | h
    · exact Lexeme.first_ne_nil c r
    · exact ih h

theorem Token.le_position_of_mem_inOrder {position : Nat} {texts : List (List Char)} {t : Token}
    (h : t ∈ inOrder position texts) : position ≤ t.position := by
  induction texts generalizing position with
  | nil => cases h
  | cons text texts ih =>
    rw [inOrder_cons] at h
    rcases List.mem_cons.1 h with rfl | h
    · exact Nat.le_refl _
    · have := ih h
      omega

theorem Token.pairwise_position_inOrder {position : Nat} {texts : List (List Char)}
    (h : ∀ l ∈ texts, l ≠ []) : (inOrder position texts).Pairwise (·.position < ·.position) := by
  induction texts generalizing position with
  | nil => exact .nil
  | cons text texts ih =>
    rw [inOrder_cons]
    refine .cons (fun t ht => ?_) (ih fun l hl => h l (List.mem_cons_of_mem _ hl))
    have hle := le_position_of_mem_inOrder ht
    have hpos := Text.byteLength_pos (h text List.mem_cons_self)
    show position < t.position
    omega

/-- Each token of a text stands behind the ones before it. -/
theorem pairwise_position_tokenize (s : List Char) :
    (tokenize s).Pairwise (·.position < ·.position) :=
  Token.pairwise_position_inOrder fun _ => ne_nil_of_mem_lexemes

/-- The tokens in front of a token are those at other places. -/
theorem takeWhile_position_ne {before after : List Token} {t : Token}
    (h : (before ++ t :: after).Pairwise (·.position < ·.position)) :
    (before ++ t :: after).takeWhile (·.position != t.position) = before := by
  induction before with
  | nil => simp
  | cons u before ih =>
    rw [List.cons_append, List.pairwise_cons] at h
    have hlt := h.1 t (by simp)
    rw [List.cons_append, List.takeWhile_cons_of_pos (by simpa using Nat.ne_of_lt hlt), ih h.2]

/-! ## Seams -/

/-- The character may stand next to others in a lexeme: it is a numeral or a letter. -/
def Lexeme.joins (c : Char) : Bool := isNumeral c || isLetter c

/-- Of the two characters that meet between the texts, one is a lexeme of its own. -/
def Seam (s t : List Char) : Prop :=
  ∀ c ∈ s.getLast?, ∀ d ∈ t.head?, Lexeme.joins c = false ∨ Lexeme.joins d = false

namespace Seam

variable {s t u : List Char} {c : Char}

theorem of_mark (s t : List Char) (h : Lexeme.joins c = false) : Seam s (c :: t) := by
  rintro _ - _ ⟨⟩
  exact .inr h

theorem of_head (s : List Char) (h : ∀ d ∈ t.head?, Lexeme.joins d = false) : Seam s t :=
  fun _ _ d hd => .inr (h d hd)

theorem of_last (h : ∀ c ∈ s.getLast?, Lexeme.joins c = false) (t : List Char) : Seam s t :=
  fun c hc _ _ => .inl (h c hc)

theorem of_append (h : Seam (s ++ u) t) : Seam u t := by
  intro c hc
  exact h c (by simp [List.getLast?_append, Option.mem_def.1 hc])

theorem tail {d : Char} (h : Seam (c :: d :: s) t) : Seam (d :: s) t :=
  of_append (s := [c]) h

/-- Behind joining characters the next text starts with a mark. -/
theorem head_of_joins (h : Seam s t) (hs : s ≠ []) (hall : ∀ c ∈ s, Lexeme.joins c) :
    ∀ d ∈ t.head?, Lexeme.joins d = false := by
  intro d hd
  rcases h _ (List.getLast?_eq_some_getLast hs) d hd with hfalse | hd
  · rw [hall _ (List.getLast_mem hs)] at hfalse
    cases hfalse
  · exact hd

theorem head_of_singleton (h : Seam [c] t) (hc : Lexeme.joins c) :
    ∀ d ∈ t.head?, Lexeme.joins d = false :=
  h.head_of_joins (List.cons_ne_nil _ _) (by simpa using hc)

end Seam

/-! ## One lexeme -/

namespace Lexeme

variable {s t : List Char} {p : Char → Bool}

theorem joins_of_isNumeral {c : Char} (h : isNumeral c) : joins c := by
  simp [joins, h]

theorem joins_of_isLetter {c : Char} (h : isLetter c) : joins c := by
  simp [joins, h]

theorem joins_of_isDigit {c : Char} (h : c.isDigit) : joins c := by
  simp [joins, isNumeral, h]

theorem takeWhile_of_head (hp : ∀ c, p c → joins c) (h : ∀ d ∈ t.head?, joins d = false) :
    t.takeWhile p = [] ∧ t.dropWhile p = t := by
  cases t with
  | nil => exact ⟨rfl, rfl⟩
  | cons d t =>
    have hd : ¬ p d := fun hd => by
      have hfalse := h d rfl
      rw [hp d hd] at hfalse
      cases hfalse
    exact ⟨List.takeWhile_cons_of_neg hd, List.dropWhile_cons_of_neg hd⟩

theorem takeWhile_append_of_seam (hp : ∀ c, p c → joins c) (h : Seam s t) (hs : s ≠ []) :
    (s ++ t).takeWhile p = s.takeWhile p ∧ (s ++ t).dropWhile p = s.dropWhile p ++ t := by
  induction s with
  | nil => exact absurd rfl hs
  | cons c s ih =>
    by_cases hc : p c
    · simp only [List.cons_append, List.takeWhile_cons_of_pos hc, List.dropWhile_cons_of_pos hc]
      cases s with
      | nil =>
        obtain ⟨htake, hdrop⟩ := takeWhile_of_head hp (h.head_of_singleton (hp c hc))
        simp [htake, hdrop]
      | cons d s =>
        obtain ⟨htake, hdrop⟩ := ih h.tail (List.cons_ne_nil _ _)
        exact ⟨congrArg (c :: ·) htake, hdrop⟩
    · simp [List.takeWhile_cons_of_neg hc, List.dropWhile_cons_of_neg hc]

theorem exponent_of_head (h : ∀ d ∈ t.head?, joins d = false) : exponent t = ([], t) := by
  unfold exponent
  split
  · have he : joins 'e' = false := h 'e' rfl
    simp [joins, isLetter] at he
  · rfl

theorem exponent_append_of_seam (h : Seam s t) (hs : s ≠ []) :
    exponent (s ++ t) = ((exponent s).1, (exponent s).2 ++ t) := by
  rcases s with - | ⟨c, - | ⟨d, s⟩⟩
  · exact absurd rfl hs
  · by_cases hc : c = 'e'
    · subst hc
      have hhead := h.head_of_singleton (by decide)
      cases t with
      | nil => rfl
      | cons d t =>
        have hd : ¬ d.isDigit := fun hd => by
          have hfalse := hhead d rfl
          rw [joins_of_isDigit hd] at hfalse
          cases hfalse
        simp [exponent, hd]
    · simp [exponent, hc]
  · by_cases hc : c = 'e'
    · subst hc
      by_cases hd : d.isDigit
      · have hspan := takeWhile_append_of_seam (fun _ => joins_of_isDigit) h.tail
          (List.cons_ne_nil _ _)
        simp only [List.cons_append, List.takeWhile_cons_of_pos hd, List.dropWhile_cons_of_pos hd,
          List.cons.injEq, true_and] at hspan
        simp [exponent, hd, hspan.1, hspan.2]
      · simp [exponent, hd]
    · simp [exponent, hc]

theorem number_append_of_seam (h : Seam s t) (hs : s ≠ []) :
    number (s ++ t) = ((number s).1, (number s).2 ++ t) := by
  obtain ⟨htake, hdrop⟩ := takeWhile_append_of_seam (fun _ => joins_of_isNumeral) h hs
  have hrest : exponent (s.dropWhile isNumeral ++ t) =
      ((exponent (s.dropWhile isNumeral)).1, (exponent (s.dropWhile isNumeral)).2 ++ t) := by
    by_cases hnil : s.dropWhile isNumeral = []
    · have hall := List.dropWhile_eq_nil_iff.1 hnil
      have hhead := h.head_of_joins hs fun c hc => joins_of_isNumeral (hall c hc)
      rw [hnil, List.nil_append, exponent_of_head hhead]
      rfl
    · refine exponent_append_of_seam (Seam.of_append (s := s.takeWhile isNumeral) ?_) hnil
      rwa [List.takeWhile_append_dropWhile]
  simp only [number, htake, hdrop, hrest]

/-- A lexeme does not go on beyond a seam. -/
theorem first_append_of_seam {c : Char} {r : List Char} (h : Seam (c :: r) t) :
    first c (r ++ t) = ((first c r).1, (first c r).2 ++ t) := by
  unfold first
  split
  · exact number_append_of_seam h (List.cons_ne_nil _ _)
  · split
    · obtain ⟨htake, hdrop⟩ :=
        takeWhile_append_of_seam (fun _ => joins_of_isLetter) h (List.cons_ne_nil _ _)
      rw [← List.cons_append, htake, hdrop]
    · rfl

end Lexeme

/-! ## All lexemes -/

/-- At a seam the lexemes of two texts stand one after the other. -/
theorem lexemes_append {s t : List Char} (h : Seam s t) :
    lexemes (s ++ t) = lexemes s ++ lexemes t := by
  fun_induction lexemes s with
  | case1 => rfl
  | case2 c r ih =>
    rw [List.cons_append, lexemes_cons, Lexeme.first_append_of_seam h, List.cons_append]
    rw [← Lexeme.first_append] at h
    rw [ih h.of_append]

/-- Lexemes in front of a mark do not depend on what follows it. -/
theorem lexemes_append_mark (s t : List Char) {c : Char} (h : Lexeme.joins c = false) :
    lexemes (s ++ c :: t) = lexemes s ++ [c] :: lexemes t := by
  obtain ⟨hn, hl⟩ := Bool.or_eq_false_iff.1 h
  rw [lexemes_append (.of_mark s t h), lexemes_cons_mark hn hl]

theorem lexemes_flatten_of_append {t : List Char} {xs ys : List (List Char)}
    (h : lexemes t = xs ++ ys) : lexemes ys.flatten = ys := by
  fun_induction lexemes t generalizing xs with
  | case1 =>
    obtain ⟨rfl, rfl⟩ := List.append_eq_nil_iff.1 h.symm
    exact lexemes_nil
  | case2 c r ih =>
    cases xs with
    | nil =>
      rw [List.nil_append] at h
      rw [← h, ← lexemes_cons, flatten_lexemes]
    | cons x xs => exact ih (List.cons.inj h).2

/-- The lexemes up to a seam, joined, have these lexemes again. -/
theorem lexemes_eq_of_append {t : List Char} {xs ys : List (List Char)}
    (h : lexemes t = xs ++ ys) (hseam : Seam xs.flatten ys.flatten) :
    lexemes xs.flatten = xs := by
  have htext : t = xs.flatten ++ ys.flatten := by
    rw [← flatten_lexemes t, h, List.flatten_append]
  have hall := lexemes_append hseam
  rw [← htext, h, lexemes_flatten_of_append h] at hall
  exact (List.append_cancel_right hall).symm

/-! ## Tokens at a seam -/

namespace Token

/-- The token, moved `n` bytes to the right. -/
def shift (n : Nat) (t : Token) : Token := { t with position := t.position + n }

/-- Where the first token stands moves all tokens and changes nothing else. -/
theorem inOrder_add (position n : Nat) (texts : List (List Char)) :
    inOrder (position + n) texts = (inOrder position texts).map (shift n) := by
  induction texts generalizing position with
  | nil => rfl
  | cons text texts ih =>
    have hnext : position + n + Text.byteLength text = position + Text.byteLength text + n :=
      Nat.add_right_comm ..
    rw [inOrder_cons, inOrder_cons, List.map_cons, hnext, ih]
    rfl

end Token

/-- At a seam the tokens of two texts stand one after the other. The tokens of the second text keep
their kinds and their texts, and their positions grow by the bytes of the first. -/
theorem tokenize_append {s t : List Char} (h : Seam s t) :
    tokenize (s ++ t) = tokenize s ++ (tokenize t).map (Token.shift (Text.byteLength s)) := by
  unfold tokenize
  rw [lexemes_append h, Token.inOrder_append, flatten_lexemes, Token.inOrder_add]

/-- An `e` behind a number takes no sign. The letter in front of the number has two bytes. -/
theorem tokenize_append_at_sign :
    Seam ['é', '1', 'e'] ['-', '3'] ∧
      tokenize ['é', '1', 'e', '-', '3'] =
        tokenize ['é', '1', 'e'] ++ [⟨.operator .subtract, ['-'], 4⟩, ⟨.number 3, ['3'], 5⟩] := by
  have hseam : Seam ['é', '1', 'e'] ['-', '3'] := .of_mark _ _ (by decide)
  have hbehind : (tokenize ['-', '3']).map (Token.shift 4) =
      [⟨.operator .subtract, ['-'], 4⟩, ⟨.number 3, ['3'], 5⟩] := by decide +kernel
  exact ⟨hseam, hbehind ▸ tokenize_append hseam⟩

-- Between a letter and a digit there is no seam: both may belong to one lexeme.
example : lexemes ['1', 'e', '3'] ≠ lexemes ['1', 'e'] ++ lexemes ['3'] := by
  decide +kernel

end DeskCalculator
