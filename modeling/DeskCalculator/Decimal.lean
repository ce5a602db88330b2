/-!
# Doubles and decimals

**Doubles in parts** (`Binary64.ofFloat`). A finite double is a sign, a whole mantissa and a power
of two. Taken apart, questions about its exact value become questions about whole numbers. What
division with a whole quotient, cut off toward zero, leaves over (`Binary64.remainder`) is computed
on the mantissas, hence exact, and has the sign of the dividend.

**Decimals** (`Decimal`). A whole number of digits and a power of ten: what a written number means
before it is rounded to a double.

**Reading.** A number without a sign (`Decimal.ofChars?`) is digits with at most one point among,
before or after them, then possibly an `e`, a sign and more digits. At least one digit stands before
the exponent. With a sign (`Decimal.floatOfChars?`) there may be a `-` in front, and there are three
values without digits: `inf`, `-inf` and `NaN`.

**Writing** (`Decimal.shortest`). A double is written with the fewest digits that read back as the
same double. With a given number of digits only two decimals come into question, the neighbours of
the exact value on the grid of decimals with that many digits. The search takes the first number of
digits for which one of them reads back (`Decimal.ReadsBack`). If both do, the nearer one is taken,
and a `Tie` says which one if both are equally near.

**Plain text** (`Decimal.plainText`). The shortest digits that read back, never with an exponent,
padded with zeros up to the point where needed, and without a point in whole numbers. Zero keeps its
sign.
-/

namespace DeskCalculator

/-! ## Doubles in parts -/

/-- The parts of a double. A finite one has the magnitude `mantissa · 2 ^ exponent`. -/
inductive Binary64 where
  | nan
  | infinite (negative : Bool)
  | finite (negative : Bool) (mantissa : Nat) (exponent : Int)
deriving Repr, DecidableEq

namespace Binary64

/-- Takes a double apart. Subnormal numbers and zero lack the leading bit of the mantissa. -/
def ofFloat (x : Float) : Binary64 :=
  let bits : Nat := x.toBits.toNat
  let negative := bits >>> 63 == 1
  let power : Nat := (bits >>> 52) % (1 <<< 11)
  let fraction := bits % (1 <<< 52)
  if x.isNaN then .nan
  else if power = 2047 then .infinite negative
  else if power = 0 then .finite negative fraction (-1074)
  else .finite negative (1 <<< 52 + fraction) ((power : Int) - 1075)

/-- The double `2 ^ exponent`, for exponents from -1074 to 1023. -/
def twoPower (exponent : Int) : Float :=
  if exponent < -1022 then
    Float.ofBits (UInt64.ofNat (1 <<< (exponent + 1074).toNat))
  else
    Float.ofBits (UInt64.ofNat ((exponent + 1023).toNat <<< 52))

/-- The whole number left over when `m · 2 ^ e` is divided by `n · 2 ^ f`, in units of the smaller
power of two. -/
def remainderOfParts (m : Nat) (e : Int) (n : Nat) (f : Int) : Nat :=
  let unit := min e f
  (m <<< (e - unit).toNat) % (n <<< (f - unit).toNat)

/-- What is left of `x` after taking away `y` as often as it fits, with the sign of `x`. There is
none for an infinite or undefined `x` or a zero or undefined `y`. -/
def remainder (x y : Float) : Float :=
  match ofFloat x, ofFloat y with
  | .finite _ _ _, .infinite _ => x
  | .finite negative m e, .finite _ n f =>
    if n = 0 then
      0.0 / 0.0
    else
      let rest := (remainderOfParts m e n f).toFloat * twoPower (min e f)
      if negative then -rest else rest
  | _, _ => 0.0 / 0.0

end Binary64

/-! ## Decimals -/

/-- The number `digits · 10 ^ exponent`. -/
structure Decimal where
  digits : Nat
  exponent : Int
deriving Repr, DecidableEq

namespace Decimal

/-- The power of ten with the exponent `n`. -/
def tenPower (n : Nat) : Nat := Nat.pow 10 n

/-- The nearest double. A tie goes to the even neighbour, and what is too large becomes infinite. -/
def toFloat (d : Decimal) : Float :=
  Float.ofScientific d.digits (d.exponent < 0) d.exponent.natAbs

/-- The digits as they are written, the leading one first. -/
def numerals (d : Decimal) : List Char := Nat.toDigits 10 d.digits

/-- The power of ten of the leading digit. -/
def leadingExponent (d : Decimal) : Int := d.exponent + d.numerals.length - 1

/-- The same number without zeros at the end of its digits. The exponent of zero is zero. -/
def trimmed (d : Decimal) : Decimal :=
  if d.digits = 0 then
    ⟨0, 0⟩
  else
    let zeros := (d.numerals.reverse.takeWhile (· == '0')).length
    ⟨d.digits / tenPower zeros, d.exponent + zeros⟩

/-- The same number without a positive exponent. This is what the number written out without an
exponent reads as. -/
def expanded (d : Decimal) : Decimal := ⟨d.digits * tenPower d.exponent.toNat, min d.exponent 0⟩

/-- The exact value of `mantissa · 2 ^ exponent`: a half is five tenths. -/
def ofBinary (mantissa : Nat) (exponent : Int) : Decimal :=
  if 0 ≤ exponent then
    ⟨mantissa <<< exponent.toNat, 0⟩
  else
    ⟨mantissa * Nat.pow 5 (-exponent).toNat, exponent⟩

/-! ## Reading decimals -/

/-- The number that a run of digits stands for. -/
def valueOfDigits (digits : List Char) : Nat := Nat.ofDigitChars 10 digits 0

/-- A run of digits that is not empty and is the whole text. -/
def naturalOfChars? (s : List Char) : Option Nat :=
  if s ≠ [] ∧ s.all Char.isDigit then some (valueOfDigits s) else none

/-- An exponent: digits with at most one sign in front. -/
def exponentOfChars? : List Char → Option Int
  | '-' :: s => (naturalOfChars? s).map fun n => -(n : Int)
  | '+' :: s => (naturalOfChars? s).map fun n => (n : Int)
  | s => (naturalOfChars? s).map fun n => (n : Int)

/-- What a number without a sign is written with: digits before its point, digits after it, and an
exponent. -/
structure Parts where
  whole : List Char
  fraction : List Char
  exponent : Int
deriving Repr, DecidableEq

/-- The number that the parts stand for. -/
def Parts.value (p : Parts) : Decimal :=
  ⟨valueOfDigits (p.whole ++ p.fraction), p.exponent - p.fraction.length⟩

/-- The digits after a point, if the text starts with one, and what follows them. -/
def fractionOf : List Char → List Char × List Char
  | '.' :: s => (s.takeWhile Char.isDigit, s.dropWhile Char.isDigit)
  | s => ([], s)

/-- The parts of a number without a sign. The whole text must be the number. -/
def Parts.ofChars? (s : List Char) : Option Parts :=
  let whole := s.takeWhile Char.isDigit
  let (fraction, rest) := fractionOf (s.dropWhile Char.isDigit)
  if whole = [] ∧ fraction = [] then
    none
  else
    match rest with
    | [] => some ⟨whole, fraction, 0⟩
    | mark :: exponent =>
      if mark = 'e' ∨ mark = 'E' then
        (exponentOfChars? exponent).map (Parts.mk whole fraction)
      else
        none

/-- Reads a number without a sign. -/
def ofChars? (s : List Char) : Option Decimal := (Parts.ofChars? s).map Parts.value

/-- Reads a double: a number that may have a `-` in front, `inf`, `-inf` or `NaN`. -/
def floatOfChars? : List Char → Option Float
  | ['N', 'a', 'N'] => some (0.0 / 0.0)
  | ['i', 'n', 'f'] => some (1.0 / 0.0)
  | ['-', 'i', 'n', 'f'] => some (-(1.0 / 0.0))
  | '-' :: s => (ofChars? s).map fun d => -d.toFloat
  | s => (ofChars? s).map toFloat

end Decimal

/-! ## The shortest decimal -/

/-- Which of two equally near decimals is taken. -/
inductive Tie where
  /-- The larger one. -/
  | up
  /-- The one with an even last digit. -/
  | even
deriving Repr, DecidableEq

namespace Decimal

/-- The decimal, written out without an exponent, reads as `x`. -/
def ReadsBack (x : Float) (d : Decimal) : Prop := d.expanded.toFloat = x

instance (x : Float) (d : Decimal) : Decidable (ReadsBack x d) :=
  inferInstanceAs (Decidable (d.expanded.toFloat = x))

/-! ## Neighbours -/

/-- The decimal without its last `dropped` digits. -/
def below (d : Decimal) (dropped : Nat) : Decimal :=
  ⟨d.digits / tenPower dropped, d.exponent + dropped⟩

/-- The next decimal after `d.below dropped` with as many digits. -/
def above (d : Decimal) (dropped : Nat) : Decimal :=
  ⟨d.digits / tenPower dropped + 1, d.exponent + dropped⟩

/-- How far `d.below dropped` is from `d`, in units of the last digit of `d`. -/
def belowDistance (d : Decimal) (dropped : Nat) : Nat := d.digits % tenPower dropped

/-- How far `d.above dropped` is from `d`, in units of the last digit of `d`. -/
def aboveDistance (d : Decimal) (dropped : Nat) : Nat :=
  tenPower dropped - d.digits % tenPower dropped

/-- Of the two neighbours of `d` without `dropped` digits, the upper one is to be taken. -/
def upperIsNearer (tie : Tie) (d : Decimal) (dropped : Nat) : Bool :=
  match compare (d.belowDistance dropped) (d.aboveDistance dropped), tie with
  | .lt, _ => false
  | .gt, _ => true
  | .eq, .up => true
  | .eq, .even => (d.below dropped).digits % 2 == 1

/-- The neighbours of `d` without `dropped` digits, the one to be taken first. One that is further
away than half of `gap` is left out. -/
def neighbours (tie : Tie) (gap : Nat) (d : Decimal) (dropped : Nat) : List Decimal :=
  let lower := if 2 * d.belowDistance dropped ≤ gap then [(d.below dropped).trimmed] else []
  let upper := if 2 * d.aboveDistance dropped ≤ gap then [(d.above dropped).trimmed] else []
  if upperIsNearer tie d dropped then upper ++ lower else lower ++ upper

/-! ## The search -/

/-- The neighbour of `d` without `dropped` digits that reads back as `x`, the value of `d`. The
distance to the next double is `gap`, so a decimal further away than half of it cannot read back. -/
def nearest? (tie : Tie) (x : Float) (gap : Nat) (d : Decimal) (dropped : Nat) : Option Decimal :=
  (neighbours tie gap d dropped).find? (ReadsBack x ·)

/-- The first decimal that the search finds, with one digit, two digits and so on. Seventeen digits
suffice for every double. -/
def search? (tie : Tie) (x : Float) (gap : Nat) (d : Decimal) : Option Decimal :=
  let size := d.numerals.length
  (List.range' 1 17).findSome? fun count => nearest? tie x gap d (size - count)

/-- The shortest decimal that reads back as the positive double `x = mantissa · 2 ^ exponent`. The
exact value stands for a search without end. -/
def shortest (tie : Tie) (x : Float) (mantissa : Nat) (exponent : Int) : Decimal :=
  let exact := ofBinary mantissa exponent
  (search? tie x (ofBinary 1 exponent).digits exact).getD exact.trimmed

/-! ## Plain text -/

/-- The number without an exponent. A whole number has no point. -/
def positional (d : Decimal) : List Char :=
  let numerals := d.numerals
  let places := (-d.exponent).toNat
  if 0 ≤ d.exponent then
    numerals ++ List.replicate d.exponent.toNat '0'
  else if places < numerals.length then
    numerals.take (numerals.length - places) ++ '.' :: numerals.drop (numerals.length - places)
  else
    '0' :: '.' :: (List.replicate (places - numerals.length) '0' ++ numerals)

/-- Puts a minus in front of a negative number. -/
def withSign (negative : Bool) (magnitude : List Char) : List Char :=
  if negative then '-' :: magnitude else magnitude

/-- The text of a double. Of two equally near decimals the larger is written. -/
def plainChars (x : Float) : List Char :=
  match Binary64.ofFloat x with
  | .nan => "NaN".toList
  | .infinite negative => withSign negative "inf".toList
  | .finite negative mantissa exponent =>
    withSign negative (shortest .up x.abs mantissa exponent).positional

/-- The text of a double. -/
def plainText (x : Float) : String := String.ofList (plainChars x)

/-! ## Examples -/

example : plainText 14.0 = "14" := by decide +kernel

example : plainText (0.1 + 0.2) = "0.30000000000000004" := by decide +kernel

example : plainText (-0.0) = "-0" := by decide +kernel

example : plainText 1e21 = "1000000000000000000000" := by decide +kernel

example : plainText 1e-7 = "0.0000001" := by decide +kernel

/-- The double has the decimals ending in `12` and `13` as equally near neighbours. -/
example : plainText 2.98023223876953125e-8 = "0.000000029802322387695313" := by decide +kernel

end Decimal

end DeskCalculator
