import DeskCalculator.Proofs.Arithmetic.Doubles
import DeskCalculator.Proofs.Decimal.Runs
import DeskCalculator.Proofs.Token.Tiling

/-!
# Shapes of lexemes

**Kinds** (`kind_of_mem_lexemes`). The first character of a lexeme decides its kind: a numeral makes
it a number or nothing, a letter a name, and any other character is a lexeme of its own.

**Plain characters** (`Text.IsPlain`). Characters that are their own normal form. A text of them is
not changed by normalizing (`Text.normalize_eq_self`), and numbers, function names, operators and
parentheses are written with nothing else (`isPlain_of_mem_lexemes`).

**Numerals** (`Decimal.Numeral`). The text of a finite double is a run of digits and points, with a
minus in front if the double has the sign. The run is one lexeme (`Numeral.lexemes_plainChars`) and
a number, so the text is read as a number with at most one sign. The double that the run stands for
is the one that was written, as long as its text reads back (`exists_numeral`).
-/

namespace DeskCalculator

/-! ## Kinds -/

theorem exists_first_of_mem_lexemes {s l : List Char} (h : l ∈ lexemes s) :
    ∃ c r, l = (Lexeme.first c r).1 := by
  fun_induction lexemes s with
  | case1 => cases h
  | case2 c r ih =>
    rcases List.mem_cons.1 h with rfl | h
    · exact ⟨c, r, rfl⟩
    · exact ih h

namespace Lexeme

theorem mem_number {c : Char} {s : List Char} (h : c ∈ (number s).1) : isNumeral c ∨ c = 'e' := by
  simp only [number, List.mem_append] at h
  rcases h with h | h
  · exact .inl (List.mem_takeWhile_imp h)
  · unfold exponent at h
    split at h
    · split at h
      next d r _ hd =>
        simp only [List.mem_cons] at h
        rcases h with rfl | rfl | h
        · exact .inr rfl
        · exact .inl (by simp [isNumeral, hd])
        · exact .inl (by simp [isNumeral, List.mem_takeWhile_imp h])
      next => cases h
    · cases h

theorem lexemes_of_isNumeral {s : List Char} (hs : s ≠ []) (hall : ∀ c ∈ s, isNumeral c) :
    lexemes s = [s] := by
  cases s with
  | nil => exact absurd rfl hs
  | cons c s =>
    have htake := List.takeWhile_eq_self_iff.2 hall
    have hdrop := List.dropWhile_eq_nil_iff.2 hall
    rw [lexemes_cons, first, if_pos (hall c List.mem_cons_self)]
    simp [number, htake, hdrop, exponent]

theorem lexemes_of_isLetter {c : Char} {s : List Char} (hc : isNumeral c = false)
    (hall : ∀ d ∈ c :: s, isLetter d) : lexemes (c :: s) = [c :: s] := by
  have htake := List.takeWhile_eq_self_iff.2 hall
  have hdrop := List.dropWhile_eq_nil_iff.2 hall
  rw [lexemes_cons, first, if_neg (by simp [hc]), if_pos (hall c List.mem_cons_self), htake, hdrop,
    lexemes_nil]

theorem lexemes_name (f : Function) : lexemes f.name.toList = [f.name.toList] := by
  cases f <;> exact lexemes_of_isLetter rfl (List.all_eq_true.1 (by decide))

theorem joins_symbol (op : Operator) : joins op.symbol = false := by
  cases op <;> decide

theorem exists_cons_of_first (c : Char) (r : List Char) : ∃ rest, (first c r).1 = c :: rest := by
  unfold first
  split
  next h =>
    rw [number, List.takeWhile_cons_of_pos h]
    exact ⟨_, rfl⟩
  next =>
    split
    next h => exact ⟨_, List.takeWhile_cons_of_pos h⟩
    next => exact ⟨[], rfl⟩

end Lexeme

/-- A number, a name, or a mark: what a lexeme is and which kind it has. -/
theorem kind_of_mem_lexemes {s l : List Char} (h : l ∈ lexemes s) :
    ((∀ c ∈ l, Lexeme.isNumeral c ∨ c = 'e') ∧ TokenKind.ofText l = TokenKind.ofNumeral l) ∨
      TokenKind.ofText l = .name ∨
      ∃ c, l = [c] ∧ Lexeme.joins c = false ∧ TokenKind.ofText l = TokenKind.ofMark c := by
  obtain ⟨c, r, rfl⟩ := exists_first_of_mem_lexemes h
  obtain ⟨rest, hrest⟩ := Lexeme.exists_cons_of_first c r
  by_cases hn : Lexeme.isNumeral c
  · refine .inl ⟨fun d hd => ?_, by rw [hrest, TokenKind.ofText, if_pos hn]⟩
    rw [Lexeme.first, if_pos hn] at hd
    exact Lexeme.mem_number hd
  · by_cases hl : Lexeme.isLetter c
    · exact .inr (.inl (by rw [hrest, TokenKind.ofText, if_neg hn, if_pos hl]))
    · have hfirst : (Lexeme.first c r).1 = [c] := by rw [Lexeme.first, if_neg hn, if_neg hl]
      refine .inr (.inr ⟨c, hfirst, by simp [Lexeme.joins, hn, hl], ?_⟩)
      rw [hfirst, TokenKind.ofText, if_neg hn, if_neg hl]

namespace TokenKind

variable {c : Char}

theorem ofText_mark (h : Lexeme.joins c = false) : ofText [c] = ofMark c := by
  obtain ⟨hn, hl⟩ := Bool.or_eq_false_iff.1 h
  simp [ofText, hn, hl]

theorem eq_of_ofMark_opening (h : ofMark c = .opening) : c = '(' := by
  unfold ofMark at h
  split at h
  next hc => exact hc
  next =>
    split at h
    next => cases h
    next => split at h <;> cases h

theorem eq_of_ofMark_closing (h : ofMark c = .closing) : c = ')' := by
  unfold ofMark at h
  split at h
  next => cases h
  next =>
    split at h
    next hc => exact hc
    next => split at h <;> cases h

end TokenKind

theorem Token.kind_symbol (place : Nat) (op : Operator) :
    (ofText place [op.symbol]).kind = .operator op := by
  cases op <;> rfl

theorem Token.kind_name (place : Nat) (f : Function) :
    (ofText place f.name.toList).kind = .name := by
  cases f <;> rfl

theorem exists_mark_of_kind {s l : List Char} (h : l ∈ lexemes s)
    (hk : (∃ op, TokenKind.ofText l = .operator op) ∨ TokenKind.ofText l = .opening ∨
      TokenKind.ofText l = .closing) : ∃ c, l = [c] ∧ Lexeme.joins c = false := by
  rcases kind_of_mem_lexemes h with ⟨-, hnumeral⟩ | hname | ⟨c, rfl, hc, -⟩
  · rw [hnumeral, TokenKind.ofNumeral] at hk
    split at hk <;> simp at hk
  · simp [hname] at hk
  · exact ⟨c, rfl, hc⟩

/-! ## Plain characters -/

namespace Text

/-- The character is its own normal form. -/
def IsPlain (c : Char) : Prop := isBlank c = false ∧ lowercase c = [c]

instance (c : Char) : Decidable (IsPlain c) := inferInstanceAs (Decidable (_ ∧ _))

theorem normalize_cons_of_isPlain {c : Char} (h : IsPlain c) (s : List Char) :
    normalize (c :: s) = c :: normalize s := by
  rw [normalize_cons, if_neg (by simp [h.1]), h.2]
  rfl

/-- Normalizing does not change a text of plain characters. -/
theorem normalize_eq_self {s : List Char} (h : ∀ c ∈ s, IsPlain c) : normalize s = s := by
  induction s with
  | nil => rfl
  | cons c s ih =>
    rw [normalize_cons_of_isPlain (h c List.mem_cons_self),
      ih fun d hd => h d (List.mem_cons_of_mem c hd)]

theorem isPlain_of_isDigit {c : Char} (h : c.isDigit) : IsPlain c := by
  have hdigits : ∀ n, n < 10 → IsPlain (Char.ofNat (48 + n)) := by decide
  have hc : 48 ≤ c.toNat ∧ c.toNat ≤ 57 := by
    simpa [Char.isDigit, UInt32.le_iff_toNat_le] using h
  have hplain := hdigits (c.toNat - 48) (by omega)
  rwa [Nat.add_sub_of_le hc.1, Char.ofNat_toNat] at hplain

theorem isPlain_of_isNumeral {c : Char} (h : Lexeme.isNumeral c) : IsPlain c := by
  rcases Bool.or_eq_true_iff.1 h with hdigit | hpoint
  · exact isPlain_of_isDigit hdigit
  · rw [beq_iff_eq.1 hpoint]
    decide

theorem isPlain_of_mem_name {f : Function} {c : Char} (h : c ∈ f.name.toList) : IsPlain c := by
  have hall : f.name.toList.all fun c => IsPlain c := by cases f <;> decide
  exact of_decide_eq_true (List.all_eq_true.1 hall c h)

theorem isPlain_symbol (op : Operator) : IsPlain op.symbol := by
  cases op <;> decide

end Text

/-- A lexeme with a meaning is written with plain characters. -/
theorem isPlain_of_mem_lexemes {s l : List Char} (h : l ∈ lexemes s)
    (hname : TokenKind.ofText l = .name → ∃ f, Function.ofName? l = some f)
    (hstray : TokenKind.ofText l ≠ .stray) : ∀ c ∈ l, Text.IsPlain c := by
  rcases kind_of_mem_lexemes h with ⟨hnumeral, -⟩ | hk | ⟨c, rfl, -, hmark⟩
  · intro c hc
    rcases hnumeral c hc with hc | rfl
    · exact Text.isPlain_of_isNumeral hc
    · decide
  · obtain ⟨f, hf⟩ := hname hk
    rw [← Function.name_of_ofName? hf]
    exact fun c => Text.isPlain_of_mem_name
  · rw [hmark, TokenKind.ofMark] at hstray
    intro d hd
    obtain rfl := List.mem_singleton.1 hd
    split at hstray
    next hc => subst hc; decide
    next =>
      split at hstray
      next hc => subst hc; decide
      next =>
        split at hstray
        next op hop =>
          rw [← Operator.symbol_of_ofChar? hop]
          exact Text.isPlain_symbol op
        next => exact absurd rfl hstray

namespace Decimal

/-! ## Positional text -/

theorem isNumeral_of_mem_positional {d : Decimal} {c : Char} (h : c ∈ d.positional) :
    Lexeme.isNumeral c := by
  have digits : ∀ c, c.isDigit → Lexeme.isNumeral c := fun c hc => by simp [Lexeme.isNumeral, hc]
  unfold positional at h
  simp only at h
  split at h
  · rcases List.mem_append.1 h with h | h
    · exact digits c (isDigit_of_mem_numerals h)
    · exact digits c (isDigit_of_mem_zeros h)
  · split at h
    · rcases List.mem_append.1 h with h | h
      · exact digits c (isDigit_of_mem_numerals (List.mem_of_mem_take h))
      · rcases List.mem_cons.1 h with rfl | h
        · rfl
        · exact digits c (isDigit_of_mem_numerals (List.mem_of_mem_drop h))
    · simp only [List.mem_cons, List.mem_append] at h
      rcases h with rfl | rfl | h | h
      · rfl
      · rfl
      · exact digits c (isDigit_of_mem_zeros h)
      · exact digits c (isDigit_of_mem_numerals h)

theorem positional_ne_nil (d : Decimal) : d.positional ≠ [] := by
  intro h
  have hread := ofChars?_positional d
  rw [h] at hread
  cases hread

/-! ## The text of a double -/

/-- `Numeral x negative text`: the double `x` is written as the run `text` of digits and points,
with a minus in front if it is negative, and that is how it reads. -/
structure Numeral (x : Float) (negative : Bool) (text : List Char) : Prop where
  chars_eq : plainChars x = withSign negative text
  ne_nil : text ≠ []
  isNumeral : ∀ c ∈ text, Lexeme.isNumeral c
  kind : ∃ y, TokenKind.ofText text = .number y ∧ x = if negative then -y else y

theorem plainChars_of_isFinite {x : Float} (h : x.isFinite) :
    ∃ d : Decimal, plainChars x = withSign (Binary64.isNegative x) d.positional := by
  obtain ⟨mantissa, exponent, hx⟩ := Binary64.ofFloat_of_isFinite h
  exact ⟨_, by rw [plainChars, hx]⟩

theorem floatOfChars?_withSign {text : List Char} (negative : Bool) (hne : text ≠ [])
    (hall : ∀ c ∈ text, Lexeme.isNumeral c) :
    floatOfChars? (withSign negative text) =
      (ofChars? text).map fun d => if negative then -d.toFloat else d.toFloat := by
  cases text with
  | nil => exact absurd rfl hne
  | cons c text =>
    have hc := hall c List.mem_cons_self
    have hN : c ≠ 'N' := fun h => by subst h; simp [Lexeme.isNumeral] at hc
    have hi : c ≠ 'i' := fun h => by subst h; simp [Lexeme.isNumeral] at hc
    have hminus : c ≠ '-' := fun h => by subst h; simp [Lexeme.isNumeral] at hc
    cases negative <;> simp [withSign, floatOfChars?, hN, hi, hminus]

/-- The text of a finite double that reads back is a numeral. -/
theorem exists_numeral {x : Float} (h : x.isFinite)
    (hreads : floatOfChars? (plainChars x) = some x) :
    ∃ text, Numeral x (Binary64.isNegative x) text := by
  obtain ⟨d, hd⟩ := plainChars_of_isFinite h
  have hne := positional_ne_nil d
  have hall : ∀ c ∈ d.positional, Lexeme.isNumeral c := fun c => isNumeral_of_mem_positional
  rw [hd, floatOfChars?_withSign _ hne hall, ofChars?_positional] at hreads
  refine ⟨d.positional, hd, hne, hall, d.expanded.toFloat, ?_, (Option.some.inj hreads).symm⟩
  obtain ⟨c, text, hcons⟩ := List.exists_cons_of_ne_nil hne
  have hc := hall c (by simp [hcons])
  rw [hcons, TokenKind.ofText, if_pos hc, ← hcons, TokenKind.ofNumeral, ofChars?_positional]

/-- The run is one lexeme, behind the minus. -/
theorem Numeral.lexemes_plainChars {x : Float} {negative : Bool} {text : List Char}
    (h : Numeral x negative text) :
    lexemes (plainChars x) = if negative then [['-'], text] else [text] := by
  have hrun := Lexeme.lexemes_of_isNumeral h.ne_nil h.isNumeral
  rw [h.chars_eq]
  cases negative with
  | false => exact hrun
  | true =>
    rw [withSign, if_pos rfl, lexemes_cons_mark (by decide) (by decide), hrun]
    rfl

theorem Numeral.normalize_plainChars {x : Float} {negative : Bool} {text : List Char}
    (h : Numeral x negative text) : Text.normalize (plainChars x) = plainChars x := by
  refine Text.normalize_eq_self fun c hc => ?_
  rw [h.chars_eq] at hc
  have hplain : ∀ c ∈ text, Text.IsPlain c :=
    fun c hc => Text.isPlain_of_isNumeral (h.isNumeral c hc)
  cases negative with
  | false => exact hplain c hc
  | true =>
    rcases List.mem_cons.1 hc with rfl | hc
    · decide
    · exact hplain c hc

end Decimal

end DeskCalculator
