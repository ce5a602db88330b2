import DeskCalculator.Decimal
import Mathlib

/-!
# The values of doubles

A double is stored in three fields: a bit for the sign, eleven for the exponent, and the mantissa in
the others. `Binary64.ofFloat` reads them as numbers, comparisons read them as bit vectors. A finite
double is a whole multiple of a power of two. Its mantissa has 53 bits, or fewer if the exponent is
the smallest one (`Regular`).

**Theorem (`lt_zero_iff`).** The bit of the sign tells whether a finite double is less than zero,
except for the negative zero.

**Theorem (`ofFloat_pack`).** A regular mantissa and exponent, packed into a double, are read again,
and an exponent that is too large makes the double infinite. What is read is also what arithmetic
computes with (`unpack_eq`), and it determines the double (`ofFloat_injective`).
-/

namespace DeskCalculator.Binary64

open Float.Model UnpackedFloat

variable {x y : Float}

/-! ## Fields -/

/-- The bit of the sign. -/
def isNegative (x : Float) : Bool := x.toBits.toNat >>> 63 == 1

/-- The bit of the sign as a field. -/
def signField (x : Float) : BitVec 1 := @unpackSign .binary64 x.toModel.toBits.toBitVec

/-- The bits of the exponent. -/
def exponentField (x : Float) : BitVec 11 := @unpackExponent .binary64 x.toModel.toBits.toBitVec

theorem toNat_signField (x : Float) : (signField x).toNat = x.toBits.toNat / 2 ^ 63 % 2 := by
  simp [signField, unpackSign, BitVec.extractLsb, Nat.shiftRight_eq_div_pow, Float.toBits]

theorem toNat_exponentField (x : Float) :
    (exponentField x).toNat = x.toBits.toNat / 2 ^ 52 % 2 ^ 11 := by
  simp [exponentField, unpackExponent, BitVec.extractLsb, Nat.shiftRight_eq_div_pow, Float.toBits]

theorem isNegative_iff : isNegative x ↔ signField x ≠ 0#1 := by
  have hlt := x.toBits.toNat_lt
  rw [isNegative, beq_iff_eq, ne_eq, ← BitVec.toNat_inj, toNat_signField,
    Nat.shiftRight_eq_div_pow, BitVec.toNat_ofNat]
  omega

theorem eq_of_unpack_eq (h : x.toModel.unpack = y.toModel.unpack) : x = y := by
  have hbits := (unpack_inj_of_valid x.toModel.valid y.toModel.valid).1 h
  exact Float.toBits_inj.1 (UInt64.toBitVec_inj.1 hbits)

/-! ## Finite doubles -/

theorem exponentField_of_isFinite (h : x.isFinite) : exponentField x ≠ -1#11 := by
  intro hfull
  change @unpackExponent .binary64 x.toModel.toBits.toBitVec = -1#11 at hfull
  have hunpack : x.toModel.unpack.isFinite = true := h
  simp only [Float.Model.unpack, UnpackedFloat.unpack, hfull, if_true] at hunpack
  split at hunpack <;> contradiction

theorem isNaN_of_isFinite (h : x.isFinite) : x.isNaN = false := by
  rw [Float.isNaN_eq_decide_eq_nan, decide_eq_false_iff_not]
  rintro rfl
  cases h

theorem ofFloat_of_isFinite (h : x.isFinite) :
    ∃ mantissa exponent, ofFloat x = .finite (isNegative x) mantissa exponent := by
  have hpower : ¬ x.toBits.toNat >>> 52 % (1 <<< 11) = 2047 := by
    intro hpower
    refine exponentField_of_isFinite h (BitVec.eq_of_toNat_eq ?_)
    rw [toNat_exponentField, ← Nat.shiftRight_eq_div_pow]
    exact hpower
  unfold ofFloat
  simp only [isNaN_of_isFinite h, hpower, Bool.false_eq_true, if_false, isNegative]
  split <;> exact ⟨_, _, rfl⟩

/-- A finite double is compared with the sign of its bit. -/
theorem unpack_of_isFinite (h : x.isFinite) :
    (∃ m e hm, x.toModel.unpack = .finite (Sign.ofBitVec (signField x)) m e hm) ∨
      x.toModel.unpack = .zero (Sign.ofBitVec (signField x)) := by
  have hexponent : ¬ @unpackExponent .binary64 x.toModel.toBits.toBitVec = -1#11 :=
    exponentField_of_isFinite h
  simp only [Float.Model.unpack, UnpackedFloat.unpack]
  rw [if_neg hexponent]
  split
  · split
    · exact .inr rfl
    next hmantissa =>
      exact .inl ⟨_, _, Nat.pos_of_ne_zero fun hm => hmantissa (BitVec.eq_of_toNat_eq hm), rfl⟩
  · refine .inl ⟨_, _, ?_, rfl⟩
    rw [BitVec.toNat_append]
    exact Nat.lt_of_lt_of_le (by decide) Nat.left_le_or

/-! ## Comparison with zero -/

theorem lt_iff : x < y ↔ x.toModel.unpack.lt y.toModel.unpack = true := by
  show Float.lt x y = true ↔ _
  rw [Float.lt, decide_eq_true_iff]
  rfl

/-- The bit of the sign tells whether a finite double is less than zero, unless it is the negative
zero. -/
theorem lt_zero_iff (h : x.isFinite) (hx : x ≠ -0.0) : x < 0.0 ↔ isNegative x := by
  have hzero : (0.0 : Float).toModel.unpack = .zero .positive := rfl
  rw [lt_iff, hzero]
  by_cases hsign : signField x = 0#1
  · have hnot : ¬ isNegative x := fun hneg => isNegative_iff.1 hneg hsign
    have hpositive : Sign.ofBitVec (signField x) = .positive := if_pos hsign
    rcases unpack_of_isFinite h with ⟨m, e, hm, hunpack⟩ | hunpack
    · rw [hunpack, hpositive]
      exact ⟨nofun, fun hneg => absurd hneg hnot⟩
    · rw [hunpack]
      exact ⟨nofun, fun hneg => absurd hneg hnot⟩
  · have hneg : isNegative x := isNegative_iff.2 hsign
    have hnegative : Sign.ofBitVec (signField x) = .negative := if_neg hsign
    rcases unpack_of_isFinite h with ⟨m, e, hm, hunpack⟩ | hunpack
    · rw [hunpack, hnegative]
      exact ⟨fun _ => hneg, fun _ => rfl⟩
    · have hminus : (-0.0 : Float).toModel.unpack = .zero .negative := rfl
      rw [hnegative, ← hminus] at hunpack
      exact absurd (eq_of_unpack_eq hunpack) hx

/-! ## Mantissas and exponents -/

variable {negative : Bool} {m n : Nat} {e f : Int}

/-- The exact value of a finite double. -/
def value (negative : Bool) (mantissa : Nat) (exponent : Int) : ℚ :=
  (if negative then -1 else 1) * (mantissa * 2 ^ exponent)

/-- The mantissa has 53 bits, or fewer if the exponent is the smallest one. -/
structure Regular (mantissa : Nat) (exponent : Int) : Prop where
  lt : mantissa < 2 ^ 53
  le : -1074 ≤ exponent
  normal : 2 ^ 52 ≤ mantissa ∨ exponent = -1074

/-! ## Values -/

theorem value_false (m : Nat) (e : Int) : value false m e = m * 2 ^ e := by
  simp [value]

theorem value_le (negative : Bool) (m : Nat) (e : Int) : value negative m e ≤ m * 2 ^ e := by
  have hnonneg : (0 : ℚ) ≤ m * 2 ^ e := by positivity
  cases negative <;> simp only [value, Bool.false_eq_true, if_false, if_true] <;> linarith

theorem Regular.mul_lt (hm : Regular m e) (h : e < f) : (m : ℚ) * 2 ^ e < 2 ^ 52 * 2 ^ f := by
  calc (m : ℚ) * 2 ^ e < 2 ^ 53 * 2 ^ e :=
        mul_lt_mul_of_pos_right (by exact_mod_cast hm.lt) (by positivity)
    _ ≤ 2 ^ 53 * 2 ^ (f - 1) :=
      mul_le_mul_of_nonneg_left (zpow_le_zpow_right₀ one_le_two (by omega)) (by positivity)
    _ = 2 ^ 52 * 2 ^ f := by
      rw [zpow_sub_one₀ two_ne_zero]
      ring

theorem Regular.mul_lt_mul (hm : Regular m e) (hn : Regular n f) (h : e < f) :
    (m : ℚ) * 2 ^ e < n * 2 ^ f := by
  have hfull : 2 ^ 52 ≤ n := hn.normal.resolve_right (by have := hm.le; omega)
  exact (hm.mul_lt h).trans_le
    (mul_le_mul_of_nonneg_right (by exact_mod_cast hfull) (by positivity))

theorem Regular.unique (hm : Regular m e) (hn : Regular n f) (h : (m : ℚ) * 2 ^ e = n * 2 ^ f) :
    m = n ∧ e = f := by
  rcases Int.lt_trichotomy e f with hlt | rfl | hlt
  · exact absurd h (hm.mul_lt_mul hn hlt).ne
  · have hpos : (2 : ℚ) ^ e ≠ 0 := by positivity
    exact ⟨by exact_mod_cast mul_right_cancel₀ hpos h, rfl⟩
  · exact absurd h (hn.mul_lt_mul hm hlt).ne'

/-- A larger value is that of the next mantissa at least. -/
theorem Regular.succ_le (hm : Regular m e) (hn : Regular n f) (hlt : (m : ℚ) * 2 ^ e < n * 2 ^ f) :
    ((m + 1 : Nat) : ℚ) * 2 ^ e ≤ n * 2 ^ f := by
  have hpos : (0 : ℚ) < 2 ^ e := by positivity
  have hle : e ≤ f := by
    by_contra hlt'
    exact absurd hlt (hn.mul_lt_mul hm (by omega)).not_gt
  obtain ⟨d, rfl⟩ := Int.le.dest hle
  have hscale : (n : ℚ) * 2 ^ (e + d) = (n * 2 ^ d : Nat) * 2 ^ e := by
    rw [zpow_add₀ two_ne_zero, zpow_natCast]
    push_cast
    ring
  rw [hscale] at hlt ⊢
  have hnat : m < n * 2 ^ d := by exact_mod_cast lt_of_mul_lt_mul_right hlt hpos.le
  exact mul_le_mul_of_nonneg_right (by exact_mod_cast hnat) hpos.le

/-! ## Reading doubles -/

/-- The bits of the mantissa, without the leading one. -/
def mantissaField (x : Float) : BitVec 52 := @unpackMantissa .binary64 x.toModel.toBits.toBitVec

theorem toNat_mantissaField (x : Float) : (mantissaField x).toNat = x.toBits.toNat % 2 ^ 52 := by
  simp [mantissaField, unpackMantissa, BitVec.extractLsb, Float.toBits]

theorem ofFloat_eq (x : Float) : ofFloat x =
    if x.isNaN then .nan
    else if (exponentField x).toNat = 2047 then .infinite (isNegative x)
    else if (exponentField x).toNat = 0 then
      .finite (isNegative x) (mantissaField x).toNat (-1074)
    else .finite (isNegative x) (2 ^ 52 + (mantissaField x).toNat)
      ((exponentField x).toNat - 1075) := by
  rw [toNat_exponentField, toNat_mantissaField, ← Nat.shiftRight_eq_div_pow]
  rfl

theorem ofFloat_finite_iff : ofFloat x = .finite negative m e ↔
    x.isNaN = false ∧ (exponentField x).toNat ≠ 2047 ∧ isNegative x = negative ∧
      (((exponentField x).toNat = 0 ∧ m = (mantissaField x).toNat ∧ e = -1074) ∨
        ((exponentField x).toNat ≠ 0 ∧ m = 2 ^ 52 + (mantissaField x).toNat ∧
          e = (exponentField x).toNat - 1075)) := by
  rw [ofFloat_eq]
  generalize x.isNaN = nan
  cases nan with
  | true => simp
  | false =>
    simp only [Bool.false_eq_true, if_false, true_and]
    split
    next hfull => simp [hfull]
    next hfull =>
      split
      next hzero => simp [hzero, eq_comm]
      next hzero => simp [hfull, hzero, eq_comm]

theorem regular_of_ofFloat (h : ofFloat x = .finite negative m e) : Regular m e ∧ e ≤ 971 := by
  have hm := (mantissaField x).isLt
  have he := (exponentField x).isLt
  obtain ⟨-, hfull, -, ⟨-, rfl, rfl⟩ | ⟨hzero, rfl, rfl⟩⟩ := ofFloat_finite_iff.1 h
  · exact ⟨⟨by omega, by decide, .inr rfl⟩, by decide⟩
  · exact ⟨⟨by omega, by omega, .inl (by omega)⟩, by omega⟩

/-- The sign of arithmetic. -/
def sign (negative : Bool) : Sign := if negative then .negative else .positive

/-- The parts of a double as arithmetic has them, where zero has no mantissa. -/
def toUnpacked : Binary64 → UnpackedFloat
  | nan => .notANumber
  | infinite negative => .infinity (sign negative)
  | finite negative m e => if h : m = 0 then .zero (sign negative)
    else .finite (sign negative) m e (Nat.pos_of_ne_zero h)

theorem sign_isNegative (x : Float) : sign (isNegative x) = Sign.ofBitVec (signField x) := by
  by_cases hsign : signField x = 0#1
  · have hnegative : isNegative x = false :=
      Bool.eq_false_iff.2 fun hneg => isNegative_iff.1 hneg hsign
    rw [hnegative, hsign]
    rfl
  · rw [isNegative_iff.2 hsign]
    exact (if_neg hsign).symm

theorem unpack_eq (x : Float) : x.toModel.unpack = toUnpacked (ofFloat x) := by
  have hunpack : x.toModel.unpack =
      if exponentField x = -1#11 then
        if mantissaField x = 0#52 then .infinity (sign (isNegative x)) else .notANumber
      else if exponentField x = 0#11 then
        if h : mantissaField x = 0#52 then .zero (sign (isNegative x))
        else .finite (sign (isNegative x)) (mantissaField x).toNat
          ((exponentField x).toNat - (1023 + 52) + 1)
          (Nat.pos_of_ne_zero fun hm => h (BitVec.eq_of_toNat_eq hm))
      else .finite (sign (isNegative x)) (1#1 ++ mantissaField x).toNat
          ((exponentField x).toNat - (1023 + 52))
          (by rw [BitVec.toNat_append]; exact Nat.lt_of_lt_of_le (by decide) Nat.left_le_or) := by
    rw [sign_isNegative]
    rfl
  have hnan : x.isNaN = x.toModel.unpack.isNaN := rfl
  rw [ofFloat_eq, hnan, hunpack]
  by_cases hfull : exponentField x = -1#11
  · have hnat : (exponentField x).toNat = 2047 := congrArg BitVec.toNat hfull
    rw [if_pos hfull, if_pos hnat]
    split <;> rfl
  · have hnat : (exponentField x).toNat ≠ 2047 := fun h => hfull (BitVec.eq_of_toNat_eq h)
    rw [if_neg hfull, if_neg hnat]
    by_cases hzero : exponentField x = 0#11
    · have hnatzero : (exponentField x).toNat = 0 := congrArg BitVec.toNat hzero
      rw [if_pos hzero, if_pos hnatzero]
      by_cases hmantissa : mantissaField x = 0#52
      · simp [hmantissa, UnpackedFloat.isNaN, toUnpacked]
      · have hm : (mantissaField x).toNat ≠ 0 := fun h => hmantissa (BitVec.eq_of_toNat_eq h)
        simp [hmantissa, UnpackedFloat.isNaN, toUnpacked, hm, hnatzero]
    · have hnatzero : (exponentField x).toNat ≠ 0 := fun h => hzero (BitVec.eq_of_toNat_eq h)
      have hm : (1#1 ++ mantissaField x).toNat = 2 ^ 52 + (mantissaField x).toNat := by
        rw [BitVec.toNat_append, ← Nat.shiftLeft_add_eq_or_of_lt (BitVec.isLt _)]
        rfl
      rw [if_neg hzero, if_neg hnatzero]
      simp only [hm]
      simp [UnpackedFloat.isNaN, toUnpacked]

/-- A double is determined by its parts. -/
theorem ofFloat_injective : Function.Injective ofFloat := fun x y h =>
  eq_of_unpack_eq (by rw [unpack_eq, unpack_eq, h])

theorem unpack_of_ofFloat (h : ofFloat x = .finite false m e) (hm : 0 < m) :
    x.toModel.unpack = .finite .positive m e hm := by
  rw [unpack_eq, h]
  exact dif_neg hm.ne'

/-! ## Packing doubles -/

theorem unpackSign_packComponents (spec : Format) (sign : Sign)
    (exponent : BitVec spec.exponentBits) (mantissa : BitVec spec.mantissaBitsWithoutImplicit) :
    unpackSign (packComponents spec sign exponent mantissa) = sign.toBitVec := by
  refine BitVec.eq_of_getLsbD_eq fun i hi => ?_
  obtain rfl : i = 0 := Nat.lt_one_iff.1 hi
  simp [unpackSign, packComponents, BitVec.getLsbD_append, BitVec.getElem_append]

section Fields

variable {exponent : BitVec 11} {mantissa : BitVec 52}
  (hx : x.toModel.toBits.toBitVec = packComponents .binary64 .positive exponent mantissa)

include hx

theorem exponentField_of_components : exponentField x = exponent := by
  rw [exponentField, hx]
  exact unpackExponent_packComponents

theorem mantissaField_of_components : mantissaField x = mantissa := by
  rw [mantissaField, hx]
  exact unpackMantissa_packComponents

theorem isNegative_of_components : isNegative x = false := by
  have hsign : signField x = 0#1 := by
    rw [signField, hx]
    exact unpackSign_packComponents _ _ _ _
  exact Bool.eq_false_iff.2 fun hneg => isNegative_iff.1 hneg hsign

theorem isNaN_of_components (hexponent : exponent ≠ -1#11) : x.isNaN = false := by
  have hexp : ¬ @unpackExponent .binary64 x.toModel.toBits.toBitVec = -1#11 := by
    have hfield := exponentField_of_components hx
    exact fun hfull => hexponent (hfield.symm.trans hfull)
  show x.toModel.unpack.isNaN = false
  simp only [Float.Model.unpack, UnpackedFloat.unpack]
  rw [if_neg hexp]
  split
  · split <;> rfl
  · rfl

theorem ofFloat_of_components (hexponent : exponent ≠ -1#11) : ofFloat x =
    if exponent.toNat = 0 then .finite false mantissa.toNat (-1074)
    else .finite false (2 ^ 52 + mantissa.toNat) (exponent.toNat - 1075) := by
  have hfull : exponent.toNat ≠ 2047 := fun h => hexponent (BitVec.eq_of_toNat_eq h)
  rw [ofFloat_eq, isNaN_of_components hx hexponent, exponentField_of_components hx,
    mantissaField_of_components hx, isNegative_of_components hx]
  simp [hfull]

end Fields

/-- A regular mantissa and exponent make up a double, unless the exponent is too large. -/
theorem ofFloat_pack (h : Regular m e) (hm : 0 < m) :
    ofFloat (.ofModel (.pack (.finite .positive m e hm))) =
      if e ≤ 971 then .finite false m e else .infinite false := by
  obtain ⟨hlt, hle, hnormal⟩ := h
  have hpack :
      (Float.ofModel (Float.Model.pack (.finite .positive m e hm))).toModel.toBits.toBitVec =
      if 2 ^ 11 ≤ (e + 1023 + 52).toNat + 1 then packedInfinity .binary64 .positive
      else if m.log2 + 1 = 53 then
        packComponents .binary64 .positive (BitVec.ofNat 11 (e + 1023 + 52).toNat)
          (BitVec.ofNat 52 m)
      else packComponents .binary64 .positive 0#11 (BitVec.ofNat 52 m) := rfl
  by_cases he : e ≤ 971
  · rw [if_pos he]
    rw [if_neg (by omega)] at hpack
    by_cases hbits : 2 ^ 52 ≤ m
    · have hlog : m.log2 = 52 := (Nat.log2_eq_iff (Nat.ne_of_gt hm)).2 ⟨hbits, hlt⟩
      have hexponent : (BitVec.ofNat 11 (e + 1023 + 52).toNat).toNat = (e + 1075).toNat := by
        rw [BitVec.toNat_ofNat]
        omega
      have hmantissa : (BitVec.ofNat 52 m).toNat = m - 2 ^ 52 := by
        rw [BitVec.toNat_ofNat, Nat.mod_eq_sub_mod hbits]
        exact Nat.mod_eq_of_lt (by omega)
      rw [hlog, if_pos rfl] at hpack
      rw [ofFloat_of_components hpack fun hfull => ?_, hexponent, if_neg (by omega), hmantissa]
      · rw [Nat.add_sub_of_le hbits, show ((e + 1075).toNat : Int) - 1075 = e by omega]
      · have hnat := congrArg BitVec.toNat hfull
        rw [hexponent] at hnat
        change (e + 1075).toNat = 2047 at hnat
        omega
    · have hlog : m.log2 < 52 := (Nat.log2_lt (Nat.ne_of_gt hm)).2 (Nat.not_le.1 hbits)
      have hmantissa : (BitVec.ofNat 52 m).toNat = m := by
        rw [BitVec.toNat_ofNat]
        omega
      rw [if_neg (by omega)] at hpack
      rw [ofFloat_of_components hpack (by decide), hmantissa, hnormal.resolve_left hbits]
      rfl
  · rw [if_neg he]
    rw [if_pos (by omega)] at hpack
    have hbits := UInt64.toBitVec_inj.1 (hpack.trans
      (show _ = (Float.ofModel (.pack (.infinity .positive))).toModel.toBits.toBitVec from rfl))
    rw [Float.toBits_inj.1 hbits]
    decide +kernel

end DeskCalculator.Binary64
