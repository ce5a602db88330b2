import DeskCalculator.Arithmetic
import DeskCalculator.Text

/-!
# Lexemes and tokens

A text is cut into lexemes from left to right, each as long as possible.

**Three shapes** (`Lexeme.first`). A lexeme that starts with a digit or a point is a run of digits
and points, with an exponent if one follows. A lexeme that starts with a letter is a run of letters.
Every other character is a lexeme of its own. Digits and letters are those of ASCII.

**The exponent** (`Lexeme.exponent`). A small `e` and the digits right after it. An `e` without a
digit after it is left to the next lexeme, so `2exp(1)` begins with the number `2` and the name
`exp`.

**Nothing is lost** (`flatten_lexemes`). The lexemes of a text, joined, are the text.

**Tokens** (`Token`). A token is a lexeme together with what it means and where it stands. The text
alone decides the kind (`TokenKind.ofText`). A run of digits and points that is no number, such as
`1.2.3` or a point alone, is `stray`, like every character without a meaning. A token stands at the
byte after the tokens before it (`tokenize`).
-/

namespace DeskCalculator

/-! ## Lexemes -/

namespace Lexeme

/-- A character that starts and continues a number. -/
def isNumeral (c : Char) : Bool := c.isDigit || c == '.'

/-- A character that starts and continues a name. -/
def isLetter (c : Char) : Bool := c.isAlpha

/-! ## The first lexeme -/

/-- Cuts an exponent off the front of a text: an `e` and the digits right after it. -/
def exponent : List Char → List Char × List Char
  | 'e' :: d :: r =>
    if d.isDigit then
      ('e' :: d :: r.takeWhile Char.isDigit, r.dropWhile Char.isDigit)
    else
      ([], 'e' :: d :: r)
  | s => ([], s)

/-- Cuts a number off the front of a text: digits and points, then an exponent. -/
def number (s : List Char) : List Char × List Char :=
  let (mark, rest) := exponent (s.dropWhile isNumeral)
  (s.takeWhile isNumeral ++ mark, rest)

/-- Cuts the first lexeme off the text `c :: r`. -/
def first (c : Char) (r : List Char) : List Char × List Char :=
  if isNumeral c then number (c :: r)
  else if isLetter c then ((c :: r).takeWhile isLetter, (c :: r).dropWhile isLetter)
  else ([c], r)

theorem exponent_append (s : List Char) : (exponent s).1 ++ (exponent s).2 = s := by
  unfold exponent
  split
  · split
    · simp [List.takeWhile_append_dropWhile]
    · rfl
  · rfl

theorem number_append (s : List Char) : (number s).1 ++ (number s).2 = s := by
  simp only [number, List.append_assoc, exponent_append, List.takeWhile_append_dropWhile]

/-- The first lexeme and the rest make up the text. -/
theorem first_append (c : Char) (r : List Char) : (first c r).1 ++ (first c r).2 = c :: r := by
  unfold first
  split
  · exact number_append _
  · split
    · exact List.takeWhile_append_dropWhile
    · rfl

theorem first_ne_nil (c : Char) (r : List Char) : (first c r).1 ≠ [] := by
  unfold first
  split
  · next h => simp [number, h]
  · split
    · next h => simp [h]
    · simp

theorem length_first_lt (c : Char) (r : List Char) :
    (first c r).2.length < (c :: r).length := by
  have whole := congrArg List.length (first_append c r)
  have used := List.length_pos_iff.2 (first_ne_nil c r)
  simp only [List.length_append] at whole
  omega

end Lexeme

/-! ## All lexemes -/

/-- The lexemes of a text, in order. -/
def lexemes : List Char → List (List Char)
  | [] => []
  | c :: r => (Lexeme.first c r).1 :: lexemes (Lexeme.first c r).2
termination_by s => s.length
decreasing_by exact Lexeme.length_first_lt c r

@[simp] theorem lexemes_nil : lexemes [] = [] := by
  rw [lexemes]

theorem lexemes_cons (c : Char) (r : List Char) :
    lexemes (c :: r) = (Lexeme.first c r).1 :: lexemes (Lexeme.first c r).2 := by
  rw [lexemes]

/-- The lexemes of a text, joined, are the text. -/
theorem flatten_lexemes (s : List Char) : (lexemes s).flatten = s := by
  fun_induction lexemes s with
  | case1 => rfl
  | case2 c r ih => rw [List.flatten_cons, ih, Lexeme.first_append]

/-! ## Tokens -/

/-- What a token means. -/
inductive TokenKind where
  | number (value : Float)
  | name
  | operator (op : Operator)
  | opening
  | closing
  | stray
deriving Repr, DecidableEq

namespace TokenKind

/-- The kind of a number's text. -/
def ofNumeral (text : List Char) : TokenKind :=
  match Decimal.ofChars? text with
  | some d => number d.toFloat
  | none => stray

/-- The kind of a character that is neither numeral nor letter. -/
def ofMark (c : Char) : TokenKind :=
  if c = '(' then opening
  else if c = ')' then closing
  else
    match Operator.ofChar? c with
    | some op => operator op
    | none => stray

/-- The kind of a lexeme. -/
def ofText : List Char → TokenKind
  | [] => stray
  | c :: r =>
    if Lexeme.isNumeral c then ofNumeral (c :: r)
    else if Lexeme.isLetter c then name
    else ofMark c

end TokenKind

/-- A piece of an expression. -/
structure Token where
  kind : TokenKind
  text : List Char
  /-- The byte offset in the text that was cut into tokens. -/
  position : Nat
deriving Repr, DecidableEq

namespace Token

/-- The token with a given text at a given place. -/
def ofText (position : Nat) (text : List Char) : Token :=
  ⟨.ofText text, text, position⟩

/-- Turns texts into tokens that stand one after the other from a given place on. -/
def inOrder (position : Nat) : List (List Char) → List Token
  | [] => []
  | text :: rest => ofText position text :: inOrder (position + Text.byteLength text) rest

@[simp] theorem inOrder_nil (position : Nat) : inOrder position [] = [] := rfl

@[simp] theorem inOrder_cons (position : Nat) (text : List Char) (rest : List (List Char)) :
    inOrder position (text :: rest) =
      ofText position text :: inOrder (position + Text.byteLength text) rest := rfl

theorem map_text_inOrder (position : Nat) (texts : List (List Char)) :
    (inOrder position texts).map text = texts := by
  induction texts generalizing position with
  | nil => rfl
  | cons t r ih => simp [ofText, ih]

/-- The tokens of two lists of texts stand one after the other. -/
theorem inOrder_append (position : Nat) (s t : List (List Char)) :
    inOrder position (s ++ t) =
      inOrder position s ++ inOrder (position + Text.byteLength s.flatten) t := by
  induction s generalizing position with
  | nil => rfl
  | cons a r ih => simp [ih, Nat.add_assoc]

end Token

/-- The tokens of a text. -/
def tokenize (s : List Char) : List Token := Token.inOrder 0 (lexemes s)

/-- The texts of the tokens, joined, are the text. -/
theorem flatten_text_tokenize (s : List Char) :
    ((tokenize s).map Token.text).flatten = s := by
  rw [tokenize, Token.map_text_inOrder, flatten_lexemes]

end DeskCalculator
