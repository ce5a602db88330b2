import DeskCalculator.Token
import Mathlib.Data.List.TakeWhile

/-!
# Digits that are read

**Theorem (`ofChars?_positional`).** A decimal written out without an exponent reads as the same
number without a positive exponent. Its three layouts are taken one by one: zeros after the digits,
a point among them, and zeros in front of them.

**Theorem (`ofChars?_run`).** A number in an expression is a run of digits and points, and possibly
an exponent without a sign. It is a number exactly if the run has at least one digit and at most one
point. The number is that of its digits (`ofRun`), whatever their leading zeros, moved by the
exponent and by as many places as there are digits behind the point.
-/

namespace DeskCalculator

namespace Decimal

/-! ## Digits -/

theorem isDigit_of_mem_numerals {d : Decimal} {c : Char} (h : c ∈ d.numerals) : c.isDigit := by
  exact Nat.isDigit_of_mem_toDigits (by decide) (by decide) h

theorem isDigit_of_mem_zeros {n : Nat} {c : Char} (h : c ∈ List.replicate n '0') : c.isDigit := by
  rw [List.eq_of_mem_replicate h]
  decide

theorem length_numerals_pos (d : Decimal) : 0 < d.numerals.length := Nat.length_toDigits_pos

theorem valueOfDigits_numerals (d : Decimal) : valueOfDigits d.numerals = d.digits :=
  Nat.ofDigitChars_ten_toDigits

theorem valueOfDigits_append_zeros (s : List Char) (n : Nat) :
    valueOfDigits (s ++ List.replicate n '0') = valueOfDigits s * tenPower n := by
  rw [valueOfDigits, Nat.ofDigitChars_append, Nat.ofDigitChars_replicate_zero, Nat.mul_comm]
  rfl

theorem valueOfDigits_zeros_append (s : List Char) (n : Nat) :
    valueOfDigits (List.replicate n '0' ++ s) = valueOfDigits s := by
  rw [valueOfDigits, Nat.ofDigitChars_append, Nat.ofDigitChars_replicate_zero]
  rfl

theorem takeWhile_isDigit {s : List Char} (digits : ∀ c ∈ s, c.isDigit) :
    s.takeWhile Char.isDigit = s := by
  induction s with
  | nil => rfl
  | cons c r ih =>
    rw [List.takeWhile_cons_of_pos (digits c (by simp)), ih fun x hx => digits x (by simp [hx])]

theorem dropWhile_isDigit {s : List Char} (digits : ∀ c ∈ s, c.isDigit) :
    s.dropWhile Char.isDigit = [] := by
  induction s with
  | nil => rfl
  | cons c r ih =>
    rw [List.dropWhile_cons_of_pos (digits c (by simp)), ih fun x hx => digits x (by simp [hx])]

/-! ## Numbers without an exponent -/

theorem ofChars?_digits {whole : List Char} (digits : ∀ c ∈ whole, c.isDigit)
    (present : whole ≠ []) : ofChars? whole = some (Parts.value ⟨whole, [], 0⟩) := by
  simp [ofChars?, Parts.ofChars?, takeWhile_isDigit digits, dropWhile_isDigit digits, fractionOf,
    present]

theorem ofChars?_point {whole fraction : List Char} (digits : ∀ c ∈ whole, c.isDigit)
    (fractionDigits : ∀ c ∈ fraction, c.isDigit) (present : whole ≠ []) :
    ofChars? (whole ++ '.' :: fraction) = some (Parts.value ⟨whole, fraction, 0⟩) := by
  have point : Char.isDigit '.' = false := by decide
  have take : (whole ++ '.' :: fraction).takeWhile Char.isDigit = whole := by
    rw [List.takeWhile_append_of_pos digits, List.takeWhile_cons_of_neg (by simp [point])]
    simp
  have drop : (whole ++ '.' :: fraction).dropWhile Char.isDigit = '.' :: fraction := by
    rw [List.dropWhile_append_of_pos digits, List.dropWhile_cons_of_neg (by simp [point])]
  simp [ofChars?, Parts.ofChars?, take, drop, fractionOf, takeWhile_isDigit fractionDigits,
    dropWhile_isDigit fractionDigits, present]

/-! ## Layouts -/

/-- A decimal written out without an exponent reads as the same number. -/
theorem ofChars?_positional (d : Decimal) : ofChars? d.positional = some d.expanded := by
  have size := length_numerals_pos d
  have digits : ∀ c ∈ d.numerals, c.isDigit := fun c => isDigit_of_mem_numerals
  unfold positional expanded
  by_cases he : 0 ≤ d.exponent
  · rw [if_pos he, ofChars?_digits (by
      intro c hc
      rcases List.mem_append.1 hc with hc | hc
      · exact digits c hc
      · exact isDigit_of_mem_zeros hc) (by simp [List.ne_nil_of_length_pos size])]
    simp only [Parts.value, List.append_nil, valueOfDigits_append_zeros, valueOfDigits_numerals]
    congr 2
    simp only [List.length_nil]
    omega
  · have power : d.digits * tenPower d.exponent.toNat = d.digits := by
      rw [show d.exponent.toNat = 0 by omega]
      exact Nat.mul_one _
    rw [if_neg he, power]
    by_cases hp : (-d.exponent).toNat < d.numerals.length
    · rw [if_pos hp, ofChars?_point (fun c hc => digits c (List.mem_of_mem_take hc))
        (fun c hc => digits c (List.mem_of_mem_drop hc)) (by
          rw [← List.length_pos_iff, List.length_take]
          omega)]
      simp only [Parts.value, List.take_append_drop, valueOfDigits_numerals, List.length_drop]
      congr 2
      omega
    · have zero : ∀ c ∈ ['0'], c.isDigit := fun c hc => by
        rw [List.mem_singleton.1 hc]
        decide
      rw [if_neg hp, show '0' :: '.' ::
          (List.replicate ((-d.exponent).toNat - d.numerals.length) '0' ++ d.numerals) =
          ['0'] ++ '.' ::
            (List.replicate ((-d.exponent).toNat - d.numerals.length) '0' ++ d.numerals) from rfl,
        ofChars?_point zero (by
          intro c hc
          rcases List.mem_append.1 hc with hc | hc
          · exact isDigit_of_mem_zeros hc
          · exact digits c hc) (by simp)]
      have value : valueOfDigits (['0'] ++
          (List.replicate ((-d.exponent).toNat - d.numerals.length) '0' ++ d.numerals)) =
          d.digits := by
        rw [show ['0'] = List.replicate 1 '0' from rfl, valueOfDigits_zeros_append,
          valueOfDigits_zeros_append, valueOfDigits_numerals]
      simp only [Parts.value, value, List.length_append, List.length_replicate]
      congr 2
      omega

/-! ## Runs of digits and points -/

open Lexeme

/-- A run has at least one digit and at most one point. -/
def IsNumber (run : List Char) : Prop := (∃ c ∈ run, c.isDigit) ∧ run.count '.' ≤ 1

instance (run : List Char) : Decidable (IsNumber run) := inferInstanceAs (Decidable (_ ∧ _))

/-- An exponent without a sign, or none. -/
def IsExponent (exponent : List Char) : Prop :=
  exponent = [] ∨ ∃ digits, exponent = 'e' :: digits ∧ digits ≠ [] ∧ ∀ c ∈ digits, c.isDigit

/-- The number that a run of digits and points stands for, with an exponent behind it. -/
def ofRun (run exponent : List Char) : Decimal :=
  ⟨valueOfDigits (run.filter Char.isDigit),
    (valueOfDigits exponent.tail : Int) - (run.dropWhile (· ≠ '.')).tail.length⟩

variable {whole fraction run exponent rest : List Char}

/-! ## Cutting runs -/

theorem exists_point (hrun : ∀ c ∈ run, isNumeral c) : (∀ c ∈ run, c.isDigit) ∨
    ∃ whole rest, run = whole ++ '.' :: rest ∧ (∀ c ∈ whole, c.isDigit) ∧
      ∀ c ∈ rest, isNumeral c := by
  induction run with
  | nil => exact .inl (by simp)
  | cons c run ih =>
    obtain ⟨hc, hmore⟩ := List.forall_mem_cons.1 hrun
    by_cases hdigit : c.isDigit
    · rcases ih hmore with hall | ⟨whole, rest, rfl, hwhole, hrest⟩
      · exact .inl (List.forall_mem_cons.2 ⟨hdigit, hall⟩)
      · exact .inr ⟨c :: whole, rest, rfl, List.forall_mem_cons.2 ⟨hdigit, hwhole⟩, hrest⟩
    · obtain rfl : c = '.' := by simpa [isNumeral, hdigit] using hc
      exact .inr ⟨[], run, rfl, by simp, hmore⟩

theorem span_isDigit (hwhole : ∀ c ∈ whole, c.isDigit) (rest : List Char)
    (hrest : ∀ c ∈ rest.head?, c.isDigit = false) :
    (whole ++ rest).takeWhile Char.isDigit = whole ∧
      (whole ++ rest).dropWhile Char.isDigit = rest := by
  rw [List.takeWhile_append_of_pos hwhole, List.dropWhile_append_of_pos hwhole]
  cases rest with
  | nil => simp
  | cons c rest => simp [hrest c rfl]

theorem IsExponent.head (h : IsExponent exponent) : ∀ c ∈ exponent.head?, c.isDigit = false := by
  rcases h with rfl | ⟨digits, rfl, -⟩
  · simp
  · rintro _ ⟨⟩
    decide

/-! ## Numbers by their points -/

theorem count_point_of_isDigit {s : List Char} (h : ∀ c ∈ s, c.isDigit) : s.count '.' = 0 :=
  List.count_eq_zero.2 fun hmem => absurd (h '.' hmem) (by decide)

theorem exists_isDigit_iff {s : List Char} (h : ∀ c ∈ s, c.isDigit) :
    (∃ c ∈ s, c.isDigit) ↔ s ≠ [] := by
  refine ⟨fun ⟨c, hc, _⟩ => List.ne_nil_of_mem hc, fun hne => ?_⟩
  exact ⟨s.head hne, List.head_mem hne, h _ (List.head_mem hne)⟩

theorem dropWhile_point_of_isDigit {s : List Char} (h : ∀ c ∈ s, c.isDigit) (t : List Char) :
    (s ++ t).dropWhile (· ≠ '.') = t.dropWhile (· ≠ '.') := by
  refine List.dropWhile_append_of_pos fun c hc => decide_eq_true fun heq => ?_
  exact absurd (heq ▸ h c hc) (by decide)

theorem isNumber_digits_iff (h : ∀ c ∈ run, c.isDigit) : IsNumber run ↔ run ≠ [] := by
  rw [IsNumber, exists_isDigit_iff h, count_point_of_isDigit h]
  simp

theorem ofRun_digits (h : ∀ c ∈ run, c.isDigit) (exponent : List Char) :
    ofRun run exponent = Parts.value ⟨run, [], valueOfDigits exponent.tail⟩ := by
  have hdrop := dropWhile_point_of_isDigit h []
  rw [List.append_nil] at hdrop
  rw [ofRun, hdrop]
  simp [Parts.value, List.filter_eq_self.2 h]

theorem isNumber_point_iff (hwhole : ∀ c ∈ whole, c.isDigit)
    (hfraction : ∀ c ∈ fraction, c.isDigit) :
    IsNumber (whole ++ '.' :: fraction) ↔ ¬ (whole = [] ∧ fraction = []) := by
  have hpoint : Char.isDigit '.' = false := by decide
  rw [IsNumber, List.count_append, List.count_cons_self, count_point_of_isDigit hwhole,
    count_point_of_isDigit hfraction]
  simp only [List.mem_append, List.mem_cons, or_and_right, exists_or, exists_eq_left, hpoint,
    Bool.false_eq_true, false_or, exists_isDigit_iff hwhole, exists_isDigit_iff hfraction]
  rw [Classical.or_iff_not_imp_left]
  simp

theorem ofRun_point (hwhole : ∀ c ∈ whole, c.isDigit) (hfraction : ∀ c ∈ fraction, c.isDigit)
    (exponent : List Char) : ofRun (whole ++ '.' :: fraction) exponent =
      Parts.value ⟨whole, fraction, valueOfDigits exponent.tail⟩ := by
  have hpoint : Char.isDigit '.' = false := by decide
  rw [ofRun, dropWhile_point_of_isDigit hwhole]
  simp [Parts.value, List.filter_eq_self.2 hwhole, List.filter_eq_self.2 hfraction, hpoint]

/-! ## Reading runs -/

theorem exponentOfChars?_digits {digits : List Char} (hne : digits ≠ [])
    (hdigits : ∀ c ∈ digits, c.isDigit) :
    exponentOfChars? digits = some (valueOfDigits digits : Int) := by
  have hnatural : naturalOfChars? digits = some (valueOfDigits digits) :=
    if_pos ⟨hne, List.all_eq_true.2 hdigits⟩
  unfold exponentOfChars?
  split
  next => exact absurd (hdigits '-' List.mem_cons_self) (by decide)
  next => exact absurd (hdigits '+' List.mem_cons_self) (by decide)
  next =>
    rw [hnatural]
    rfl

/-- Digits, a fraction and an exponent are a number if there is a digit in front of the exponent. -/
theorem Parts.ofChars?_of_cut {s : List Char} (hwhole : s.takeWhile Char.isDigit = whole)
    (hcut : fractionOf (s.dropWhile Char.isDigit) = (fraction, exponent))
    (hexp : IsExponent exponent) :
    Parts.ofChars? s = if whole = [] ∧ fraction = [] then none else
      some ⟨whole, fraction, valueOfDigits exponent.tail⟩ := by
  unfold Parts.ofChars?
  simp only [hwhole, hcut]
  split
  next => rfl
  next =>
    rcases hexp with rfl | ⟨digits, rfl, hne, hdigits⟩
    · rfl
    · simp [exponentOfChars?_digits hne hdigits]

theorem ofChars?_digits_append (hwhole : ∀ c ∈ whole, c.isDigit) (hexp : IsExponent exponent) :
    Parts.ofChars? (whole ++ exponent) = if whole = [] then none else
      some ⟨whole, [], valueOfDigits exponent.tail⟩ := by
  obtain ⟨htake, hdrop⟩ := span_isDigit hwhole exponent hexp.head
  have hcut : fractionOf ((whole ++ exponent).dropWhile Char.isDigit) = ([], exponent) := by
    rw [hdrop]
    rcases hexp with rfl | ⟨digits, rfl, -⟩ <;> rfl
  rw [Parts.ofChars?_of_cut htake hcut hexp]
  simp

theorem ofChars?_point_append (hwhole : ∀ c ∈ whole, c.isDigit)
    (hfraction : ∀ c ∈ fraction, c.isDigit) (hexp : IsExponent exponent) :
    Parts.ofChars? (whole ++ '.' :: (fraction ++ exponent)) =
      if whole = [] ∧ fraction = [] then none else
        some ⟨whole, fraction, valueOfDigits exponent.tail⟩ := by
  obtain ⟨htake, hdrop⟩ := span_isDigit hwhole ('.' :: (fraction ++ exponent)) (by simp)
  obtain ⟨hfirst, hlast⟩ := span_isDigit hfraction exponent hexp.head
  refine Parts.ofChars?_of_cut htake ?_ hexp
  rw [hdrop, fractionOf, hfirst, hlast]

theorem ofChars?_points (hwhole : ∀ c ∈ whole, c.isDigit) (hfraction : ∀ c ∈ fraction, c.isDigit)
    (rest : List Char) : Parts.ofChars? (whole ++ '.' :: (fraction ++ '.' :: rest)) = none := by
  obtain ⟨htake, hdrop⟩ := span_isDigit hwhole ('.' :: (fraction ++ '.' :: rest)) (by simp)
  obtain ⟨hfirst, hlast⟩ := span_isDigit hfraction ('.' :: rest) (by simp)
  unfold Parts.ofChars?
  simp [htake, hdrop, fractionOf, hfirst, hlast]

/-- A run of digits and points is a number exactly if it has a digit and no second point. -/
theorem ofChars?_run (hrun : ∀ c ∈ run, isNumeral c) (hexp : IsExponent exponent) :
    ofChars? (run ++ exponent) = if IsNumber run then some (ofRun run exponent) else none := by
  rcases exists_point hrun with hall | ⟨whole, rest, rfl, hwhole, hrest⟩
  · rw [ofChars?, ofChars?_digits_append hall hexp, ofRun_digits hall]
    simp only [isNumber_digits_iff hall, ne_eq, ite_not]
    split <;> rfl
  · rcases exists_point hrest with hfraction | ⟨fraction, more, rfl, hfraction, -⟩
    · rw [List.append_assoc, List.cons_append, ofChars?,
        ofChars?_point_append hwhole hfraction hexp, ofRun_point hwhole hfraction]
      simp only [isNumber_point_iff hwhole hfraction, ite_not]
      split <;> rfl
    · have hnumber : ¬ IsNumber (whole ++ '.' :: (fraction ++ '.' :: more)) := by
        rintro ⟨-, h⟩
        simp [count_point_of_isDigit hwhole, count_point_of_isDigit hfraction] at h
      rw [ofChars?, if_neg hnumber]
      simp [ofChars?_points hwhole hfraction]

end Decimal

end DeskCalculator
