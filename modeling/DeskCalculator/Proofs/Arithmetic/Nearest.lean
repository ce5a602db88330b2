import DeskCalculator.Proofs.Arithmetic.Rounding

/-!
# The nearest double

**The nearest double** (`Nearest`). Rounding takes the double at the smallest distance, of two at
the same distance the one with the even mantissa, and infinity for what is too large. This
determines the double (`Nearest.unique`).

**Theorem (`nearest_roundWithAccuracy`).** What arithmetic does with an exact result is to take the
nearest double. So do the product (`nearest_mul`) and the quotient (`nearest_div`).

**Theorem (`nearest_toFloat`).** A decimal is read as the nearest double. It is a whole number times
a power of ten. If the number has at most 53 bits and the power is a double, these are multiplied or
divided. Otherwise the product or the quotient of the whole numbers is rounded once.
-/

namespace DeskCalculator

namespace Binary64

open Float.Model UnpackedFloat

variable {p q : ℚ} {x y : Float} {m n : Nat} {e f t : Int}

/-! ## The nearest double -/

/-- Half way from the largest finite double to the next power of two. -/
def overflow : ℚ := (2 ^ 53 - 1 / 2) * 2 ^ (971 : Int)

theorem overflow_lt : overflow < 2 ^ (1024 : Int) := by
  calc overflow < 2 ^ (53 : Int) * 2 ^ (971 : Int) :=
        mul_lt_mul_of_pos_right (by norm_num) (by positivity)
    _ = 2 ^ (1024 : Int) := (zpow_add₀ two_ne_zero 53 971).symm

theorem lt_overflow : (2 ^ 53 + 1 / 2) * 2 ^ (970 : Int) < overflow := by
  calc (2 ^ 53 + 1 / 2) * (2 : ℚ) ^ (970 : Int) < ((2 ^ 53 - 1 / 2) * 2) * 2 ^ (970 : Int) :=
        mul_lt_mul_of_pos_right (by norm_num) (by positivity)
    _ = overflow := by
      rw [overflow, mul_assoc, ← zpow_one_add₀ two_ne_zero]
      rfl

/-- The double `x` is the one nearest to the number `q`, which is not negative.

- It is finite up to half way from the largest finite double to the next power of two. No finite
  double is nearer, and of two that are as near the one with the even mantissa is taken.
- From there on it is infinite. -/
structure Nearest (q : ℚ) (x : Float) : Prop where
  finite : q < overflow → ∃ m e, ofFloat x = .finite false m e ∧
    ∀ y negative m' e', ofFloat y = .finite negative m' e' →
      |value false m e - q| ≤ |value negative m' e' - q| ∧
      (|value negative m' e' - q| = |value false m e - q| →
        value negative m' e' = value false m e ∨ Even m)
  infinite : overflow ≤ q → ofFloat x = .infinite false

theorem exists_value_eq (negative : Bool) (m : Nat) (h : t ≤ e) :
    ∃ k : ℤ, value negative m e = k * 2 ^ t := by
  obtain ⟨d, rfl⟩ := Int.le.dest h
  refine ⟨(if negative then -1 else 1) * (m * 2 ^ d), ?_⟩
  rw [value, zpow_add₀ two_ne_zero, zpow_natCast]
  cases negative <;> push_cast <;> ring

namespace RoundsTo

theorem dist_eq (q : ℚ) (k : ℚ) (t : Int) : |k * 2 ^ t - q| = |k - q / 2 ^ t| * 2 ^ t := by
  have hpos : (0 : ℚ) < 2 ^ t := by positivity
  rw [← abs_of_pos hpos, ← abs_mul, abs_of_pos hpos, sub_mul, div_mul_cancel₀ _ hpos.ne']

/-- No double is nearer than the multiple that is rounded to. Another one that is as near shows that
the multiple is even. -/
theorem le_dist (h : RoundsTo q n t) (hm : Regular m e) (negative : Bool) :
    |n * 2 ^ t - q| ≤ |value negative m e - q| ∧
      (|value negative m e - q| = |n * 2 ^ t - q| → value negative m e = n * 2 ^ t ∨ Even n) := by
  have hpos : (0 : ℚ) < 2 ^ t := by positivity
  have hgrid : ∀ k : ℤ, |n * 2 ^ t - q| ≤ |k * 2 ^ t - q| := fun k => by
    rw [dist_eq, dist_eq]
    exact mul_le_mul_of_nonneg_right (h.nearest.le_dist k).1 hpos.le
  by_cases hle : t ≤ e
  · obtain ⟨k, hk⟩ := exists_value_eq negative m hle
    rw [hk]
    refine ⟨hgrid k, fun heq => ?_⟩
    rw [dist_eq, dist_eq] at heq
    refine ((h.nearest.le_dist k).2 (mul_right_cancel₀ hpos.ne' heq)).imp_left fun hkn => ?_
    rw [hkn]
    push_cast
    rfl
  · -- such a double is smaller than the smallest multiple with 53 bits
    have hsmall := (value_le negative m e).trans_lt (hm.mul_lt (not_le.1 hle))
    obtain ⟨-, hq⟩ := h.normal.resolve_left (by have := hm.le; omega)
    have hfull := hgrid (2 ^ 52)
    have hge : 2 ^ 52 * 2 ^ t ≤ q := by
      rw [zpow_add₀ two_ne_zero] at hq
      linarith
    have hfar : |n * 2 ^ t - q| < |value negative m e - q| := by
      rw [abs_of_nonpos (by push_cast; linarith : ((2 ^ 52 : ℤ) : ℚ) * 2 ^ t - q ≤ 0)] at hfull
      rw [abs_of_nonpos (by linarith : value negative m e - q ≤ 0)]
      push_cast at hfull
      linarith
    exact ⟨hfar.le, fun heq => absurd heq hfar.ne'⟩

theorem eq_div_mul (q : ℚ) (t : Int) : q = q / 2 ^ t * 2 ^ t :=
  (div_mul_cancel₀ q (zpow_ne_zero t two_ne_zero)).symm

theorem le_iff_of_lt (h : RoundsTo q n t) (hlt : n < 2 ^ 53) : t ≤ 971 ↔ q < overflow := by
  have herror := abs_le.1 h.nearest.1
  constructor
  · intro ht
    have hlast : (n : ℚ) ≤ 2 ^ 53 - 1 := by
      have : (n : ℚ) + 1 ≤ 2 ^ 53 := by exact_mod_cast hlt
      linarith
    -- half a unit beyond the largest mantissa would be a tie, and that mantissa is odd
    have hbelow : q / 2 ^ t < 2 ^ 53 - 1 / 2 := by
      refine lt_of_le_of_ne (by linarith) fun heq => ?_
      have hn : (n : ℚ) = 2 ^ 53 - 1 := by linarith
      have hnat : n + 1 = 2 ^ 53 := by
        have : (n : ℚ) + 1 = 2 ^ 53 := by linarith
        exact_mod_cast this
      have heven := Nat.even_iff.1 (h.nearest.2 (by rw [heq, hn]; norm_num))
      omega
    calc q = q / 2 ^ t * 2 ^ t := eq_div_mul q t
      _ < (2 ^ 53 - 1 / 2) * 2 ^ t := mul_lt_mul_of_pos_right hbelow (by positivity)
      _ ≤ overflow :=
        mul_le_mul_of_nonneg_left (zpow_le_zpow_right₀ one_le_two ht) (by norm_num)
  · intro hover
    by_contra ht
    obtain ⟨-, hge⟩ := h.normal.resolve_left (by omega)
    have hpower : (2 : ℚ) ^ (1024 : Int) ≤ 2 ^ (t + 52) :=
      zpow_le_zpow_right₀ one_le_two (by omega)
    linarith [overflow_lt]

theorem le_iff_two_pow (h : RoundsTo q (2 ^ 53) t) : t + 1 ≤ 971 ↔ q < overflow := by
  have herror := abs_le.1 h.nearest.1
  push_cast at herror
  constructor
  · intro ht
    calc q = q / 2 ^ t * 2 ^ t := eq_div_mul q t
      _ ≤ (2 ^ 53 + 1 / 2) * 2 ^ t :=
        mul_le_mul_of_nonneg_right (by linarith) (by positivity)
      _ ≤ (2 ^ 53 + 1 / 2) * 2 ^ (970 : Int) :=
        mul_le_mul_of_nonneg_left (zpow_le_zpow_right₀ one_le_two (by omega)) (by norm_num)
      _ < overflow := lt_overflow
  · intro hover
    by_contra ht
    refine absurd hover (not_lt.2 ?_)
    calc overflow ≤ (2 ^ 53 - 1 / 2) * 2 ^ t :=
          mul_le_mul_of_nonneg_left (zpow_le_zpow_right₀ one_le_two (by omega)) (by norm_num)
      _ ≤ q / 2 ^ t * 2 ^ t := mul_le_mul_of_nonneg_right (by linarith) (by positivity)
      _ = q := (eq_div_mul q t).symm

theorem carry_le_iff (h : RoundsTo q n t) : (carry n t).2 ≤ 971 ↔ q < overflow := by
  rcases h.lt_or_eq with hlt | rfl
  · rw [carry_of_lt hlt]
    exact h.le_iff_of_lt hlt
  · rw [carry_two_pow]
    exact h.le_iff_two_pow

theorem nearest_of_ofFloat {x : Float} (h : RoundsTo q n t) (hx : ofFloat x =
    if (carry n t).2 ≤ 971 then .finite false (carry n t).1 (carry n t).2 else .infinite false) :
    Nearest q x where
  finite hover := by
    rw [if_pos (h.carry_le_iff.2 hover)] at hx
    refine ⟨_, _, hx, fun y negative m' e' hy => ?_⟩
    have hvalue : value false (carry n t).1 (carry n t).2 = n * 2 ^ t := by
      rw [← h.value_carry]
      simp [value]
    obtain ⟨hle, htie⟩ := h.le_dist (regular_of_ofFloat hy).1 negative
    rw [hvalue]
    exact ⟨hle, fun heq => (htie heq).imp_right h.even_carry⟩
  infinite hover := by
    rwa [if_neg (mt h.carry_le_iff.1 (not_lt.2 hover))] at hx

end RoundsTo

/-! ## One nearest double -/

/-- Between two doubles with even mantissas there is another one. -/
theorem exists_between (hx : ofFloat x = .finite false m e) (hy : ofFloat y = .finite false n f)
    (hm : Even m) (hn : Even n) (hlt : (m : ℚ) * 2 ^ e < n * 2 ^ f) :
    ∃ z k, ofFloat z = .finite false k e ∧ (m : ℚ) * 2 ^ e < k * 2 ^ e ∧
      (k : ℚ) * 2 ^ e < n * 2 ^ f := by
  obtain ⟨hregular, hle⟩ := regular_of_ofFloat hx
  have hother := (regular_of_ofFloat hy).1
  have hnext : Regular (m + 1) e := by
    refine ⟨?_, hregular.le, hregular.normal.imp_left (Nat.le_trans · (Nat.le_succ m))⟩
    obtain ⟨k, rfl⟩ := hm
    have := hregular.lt
    omega
  refine ⟨_, m + 1, (ofFloat_pack hnext m.succ_pos).trans (if_pos hle), ?_, ?_⟩
  · exact mul_lt_mul_of_pos_right (by exact_mod_cast m.lt_succ_self) (by positivity)
  · refine lt_of_le_of_ne (hregular.succ_le hother hlt) fun heq => ?_
    obtain ⟨rfl, -⟩ := hnext.unique hother heq
    exact Nat.not_even_iff_odd.2 hm.add_one hn

/-- Two doubles with even mantissas are not at the same distance, because there is one between. -/
theorem not_tie (hx : ofFloat x = .finite false m e) (hy : ofFloat y = .finite false n f)
    (hm : Even m) (hn : Even n) (hlt : (m : ℚ) * 2 ^ e < n * 2 ^ f)
    (hnearest : ∀ z k, ofFloat z = .finite false k e → |m * 2 ^ e - q| ≤ |k * 2 ^ e - q|)
    (htie : |n * 2 ^ f - q| = |m * 2 ^ e - q|) : False := by
  obtain ⟨z, k, hz, hmk, hkn⟩ := exists_between hx hy hm hn hlt
  have hle := hnearest z k hz
  rcases abs_eq_abs.1 htie with heq | hmiddle
  · linarith
  · refine absurd hle (not_le.2 ?_)
    rw [abs_of_neg (by linarith : (m : ℚ) * 2 ^ e - q < 0), abs_lt]
    constructor <;> linarith

/-- There is only one nearest double. -/
theorem Nearest.unique (hx : Nearest q x) (hy : Nearest q y) : x = y := by
  refine ofFloat_injective ?_
  by_cases hover : q < overflow
  · obtain ⟨m, e, hxm, hxmin⟩ := hx.finite hover
    obtain ⟨n, f, hyn, hymin⟩ := hy.finite hover
    simp only [value_false] at hxmin hymin
    obtain ⟨hle, heven⟩ := hxmin y false n f hyn
    obtain ⟨hge, heven'⟩ := hymin x false m e hxm
    simp only [value_false] at hle hge heven heven'
    have htie := le_antisymm hge hle
    have hvalue : (m : ℚ) * 2 ^ e = n * 2 ^ f := by
      -- Two doubles at the same distance are both even, and a double between them is nearer.
      by_contra hne
      have hm := (heven htie).resolve_left (Ne.symm hne)
      have hn := (heven' htie.symm).resolve_left hne
      rcases lt_or_gt_of_ne hne with hlt | hgt
      · refine not_tie hxm hyn hm hn hlt (fun z k hz => ?_) htie
        have := (hxmin z false k e hz).1
        rwa [value_false] at this
      · refine not_tie hyn hxm hn hm hgt (fun z k hz => ?_) htie.symm
        have := (hymin z false k f hz).1
        rwa [value_false] at this
    obtain ⟨rfl, rfl⟩ := (regular_of_ofFloat hxm).1.unique (regular_of_ofFloat hyn).1 hvalue
    rw [hxm, hyn]
  · rw [hx.infinite (not_lt.1 hover), hy.infinite (not_lt.1 hover)]

/-! ## Arithmetic with one rounding -/

/-- Rounding gives the nearest double. -/
theorem nearest_roundWithAccuracy {accuracy : Accuracy}
    (hq : Truncates (.ofMantissaAndAccuracy m accuracy) q)
    (he : e ≤ max (m.log2 + e - 52) (-1074)) :
    Nearest (q * 2 ^ e)
      (.ofModel (.pack (roundWithAccuracy .binary64 .positive m e accuracy))) :=
  (roundsTo_shiftToTargetExponent hq he).nearest_of_ofFloat
    (ofFloat_roundWithAccuracy rfl (roundsTo_shiftToTargetExponent hq he))

theorem nearest_zero (hq : 0 ≤ q) (hsmall : q < 2 ^ (-1075 : Int)) :
    Nearest q (.ofModel (.pack (.zero .positive))) := by
  have hhalf : (2 : ℚ) ^ (-1075 : Int) = 1 / 2 * 2 ^ (-1074 : Int) := by
    rw [one_div, ← zpow_neg_one, ← zpow_add₀ two_ne_zero]
    rfl
  have hpos : (0 : ℚ) < 2 ^ (-1074 : Int) := by positivity
  have hrounds : RoundsTo q 0 (-1074) := by
    refine ⟨nearestWhole_of_lt ?_, Nat.zero_le _, Int.le_refl _, .inl rfl⟩
    rw [Nat.cast_zero, zero_sub, abs_neg, abs_of_nonneg (by positivity), div_lt_iff₀ hpos]
    linarith
  refine hrounds.nearest_of_ofFloat ?_
  decide +kernel

theorem nearest_infinity (hq : overflow ≤ q) :
    Nearest q (.ofModel (.pack (.infinity .positive))) where
  finite hover := absurd hover (not_lt.2 hq)
  infinite _ := by decide +kernel

/-- A product of 53 bits at least is rounded to the nearest double. -/
theorem nearest_mul (hm : 0 < m) (hn : 0 < n) (hbits : 2 ^ 52 ≤ m * n) :
    Nearest ((m * n : Nat) * 2 ^ (e + f))
      (.ofModel
        (.pack (.mul .binary64 (.finite .positive m e hm) (.finite .positive n f hn)))) := by
  have hlog : 52 ≤ (m * n).log2 := (Nat.le_log2 (Nat.mul_pos hm hn).ne').2 hbits
  exact nearest_roundWithAccuracy (.ofExact (m * n)) (by omega)

/-- A quotient is computed with 53 bits at least, or down to the smallest power of two, and is
rounded to the nearest double. -/
theorem nearest_div (hm : 0 < m) (hn : 0 < n) :
    Nearest (m / n * 2 ^ (e - f))
      (.ofModel
        (.pack (.div .binary64 (.finite .positive m e hm) (.finite .positive n f hn)))) := by
  have htarget : Format.binary64.targetExponent (totalExponent m e - totalExponent n f) =
      max (m.log2 + e - (n.log2 + f) - 53) (-1074) := by
    simp only [Format.targetExponent, totalExponent, Format.mantissaBits, Format.minExponent]
    norm_num
    omega
  obtain ⟨k, hk⟩ : ∃ k : Nat,
      min (e - f) (max (m.log2 + e - (n.log2 + f) - 53) (-1074)) = e - f - k :=
    ⟨(e - f - min (e - f) (max (m.log2 + e - (n.log2 + f) - 53) (-1074))).toNat, by omega⟩
  have hdiv : UnpackedFloat.div .binary64 (.finite .positive m e hm) (.finite .positive n f hn) =
      roundWithAccuracy .binary64 .positive (m <<< k / n) (e - f - k)
        (accuracyOfFraction (m <<< k % n) n) := by
    simp only [UnpackedFloat.div, divCore, htarget, hk, sub_sub_cancel, Int.toNat_natCast]
    rfl
  have hvalue : (m : ℚ) / n * 2 ^ (e - f) = (m <<< k : Nat) / n * 2 ^ (e - f - k) := by
    rw [zpow_sub₀ two_ne_zero (e - f) k, Nat.shiftLeft_eq, zpow_natCast]
    push_cast
    field_simp
  rw [hdiv, hvalue]
  refine nearest_roundWithAccuracy (.ofQuotient _ hn) ?_
  by_cases hmin : e - f - k ≤ -1074
  · omega
  · have hbits : 2 ^ 52 ≤ m <<< k / n := by
      rw [Nat.le_div_iff_mul_le hn, Nat.shiftLeft_eq]
      calc 2 ^ 52 * n ≤ 2 ^ 52 * 2 ^ (n.log2 + 1) := Nat.mul_le_mul_left _ Nat.lt_log2_self.le
        _ = 2 ^ (n.log2 + 53) := by rw [← Nat.pow_add]; congr 1; omega
        _ ≤ 2 ^ (m.log2 + k) := Nat.pow_le_pow_right (by decide) (by omega)
        _ = 2 ^ m.log2 * 2 ^ k := Nat.pow_add 2 _ _
        _ ≤ m * 2 ^ k := Nat.mul_le_mul_right _ (Nat.log2_self_le hm.ne')
    have hlog : 52 ≤ (m <<< k / n).log2 := (Nat.le_log2 (by omega)).2 hbits
    omega

/-! ## Exact doubles -/

/-- The double is the number `q`, and its mantissa has 53 bits. -/
def IsExact (x : Float) (q : ℚ) : Prop :=
  ∃ m e, ofFloat x = .finite false m e ∧ 2 ^ 52 ≤ m ∧ m * 2 ^ e = q

theorem IsExact.mul (hx : IsExact x p) (hy : IsExact y q) : Nearest (p * q) (x * y) := by
  obtain ⟨m, e, hx, hm, rfl⟩ := hx
  obtain ⟨n, f, hy, hn, rfl⟩ := hy
  have hvalue : (m : ℚ) * 2 ^ e * (n * 2 ^ f) = (m * n : Nat) * 2 ^ (e + f) := by
    rw [zpow_add₀ two_ne_zero]
    push_cast
    ring
  have hmodel : x * y = .ofModel (.pack (.mul .binary64 x.toModel.unpack y.toModel.unpack)) := rfl
  rw [hvalue, hmodel, unpack_of_ofFloat hx (by omega), unpack_of_ofFloat hy (by omega)]
  exact nearest_mul (by omega) (by omega) (Nat.le_trans hm (Nat.le_mul_of_pos_right m (by omega)))

theorem IsExact.div (hx : IsExact x p) (hy : IsExact y q) : Nearest (p / q) (x / y) := by
  obtain ⟨m, e, hx, hm, rfl⟩ := hx
  obtain ⟨n, f, hy, hn, rfl⟩ := hy
  have hvalue : (m : ℚ) * 2 ^ e / (n * 2 ^ f) = m / n * 2 ^ (e - f) := by
    rw [zpow_sub₀ two_ne_zero, mul_div_mul_comm]
  have hmodel : x / y = .ofModel (.pack (.div .binary64 x.toModel.unpack y.toModel.unpack)) := rfl
  rw [hvalue, hmodel, unpack_of_ofFloat hx (by omega), unpack_of_ofFloat hy (by omega)]
  exact nearest_div (by omega) (by omega)

/-! ## Whole numbers and powers of ten -/

theorem isExact_roundWithAccuracy {k : Nat} (hk : m.log2 + k = 52) (hm : 0 < m) :
    IsExact (.ofModel (.pack (roundWithAccuracy .binary64 .positive (m <<< k) (0 - k) .exact)))
      m := by
  have hge : 2 ^ 52 ≤ m <<< k := by
    rw [Nat.shiftLeft_eq, ← hk, Nat.pow_add]
    exact Nat.mul_le_mul_right _ (Nat.log2_self_le hm.ne')
  have hlt : m <<< k < 2 ^ 53 := by
    rw [Nat.shiftLeft_eq, show 53 = m.log2 + 1 + k by omega, Nat.pow_add]
    exact Nat.mul_lt_mul_of_pos_right Nat.lt_log2_self (by positivity)
  have hlog : (m <<< k).log2 = 52 := (Nat.log2_eq_iff (by omega)).2 ⟨hge, hlt⟩
  have hfirst : shiftToTargetExponent .binary64 (m <<< k) (0 - k) .exact =
      ((⟨m <<< k, false, false⟩ : ExtendedMantissa), 0 - (k : Int)) := by
    rw [shiftToTargetExponent_eq (k := 0) .exact (by omega), Nat.cast_zero, add_zero]
    rfl
  have hrounds := roundsTo_shiftToTargetExponent (e := 0 - k) (.ofExact (m <<< k)) (by omega)
  rw [hfirst] at hrounds
  have hrounded : (⟨m <<< k, false, false⟩ : ExtendedMantissa).roundedMantissa = m <<< k := rfl
  refine ⟨m <<< k, 0 - k, ?_, hge, ?_⟩
  · rw [ofFloat_roundWithAccuracy hfirst hrounds, hrounded, carry_of_lt hlt]
    exact if_pos (by omega)
  · rw [Nat.shiftLeft_eq, zero_sub, zpow_neg, zpow_natCast]
    push_cast
    field_simp

theorem isExact_toFloat (hm : 0 < m) (hlt : m < 2 ^ 53) : IsExact m.toUInt64.toFloat m := by
  have hlog : m.log2 ≤ 52 := Nat.lt_succ_iff.1 ((Nat.log2_lt hm.ne').2 hlt)
  obtain ⟨k, hk⟩ := Nat.exists_eq_add_of_le hlog
  have htarget : (0 - Format.binary64.targetExponent (totalExponent m 0)).toNat = k := by
    rw [targetExponent_eq]
    omega
  have htoNat : m.toUInt64.toNat = m := by
    rw [Nat.toUInt64, UInt64.toNat_ofNat']
    omega
  have hcompare : compare (m : Int) 0 = .gt := by
    rw [Int.compare_eq_gt]
    omega
  have hround : UnpackedFloat.ofUInt64 .binary64 m.toUInt64 =
      roundWithAccuracy .binary64 .positive (m <<< k) (0 - k) .exact := by
    simp only [UnpackedFloat.ofUInt64, UnpackedFloat.ofNat, UnpackedFloat.ofInt,
      UnpackedFloat.normalize, htoNat, hcompare, Int.toNat_natCast, UnpackedFloat.round,
      decreaseExponent, htarget]
  have hmodel : m.toUInt64.toFloat =
      .ofModel (.pack (UnpackedFloat.ofUInt64 .binary64 m.toUInt64)) := rfl
  rw [hmodel, hround]
  exact isExact_roundWithAccuracy hk.symm hm

theorem ofFloat_tenPower : ∀ i : Fin Float.exactlyRepresentablePowersOfTen.size,
    ofFloat Float.exactlyRepresentablePowersOfTen[i.val] =
        .finite false (10 ^ i.val * 2 ^ 52 / 2 ^ (10 ^ i.val).log2) ((10 ^ i.val).log2 - 52) ∧
      10 ^ i.val * 2 ^ 52 / 2 ^ (10 ^ i.val).log2 * 2 ^ (10 ^ i.val).log2 =
        10 ^ i.val * 2 ^ 52 := by
  decide +kernel

theorem isExact_tenPower {e : Nat} (he : e < Float.exactlyRepresentablePowersOfTen.size) :
    IsExact Float.exactlyRepresentablePowersOfTen[e] (10 ^ e) := by
  obtain ⟨hfloat, hdiv⟩ := ofFloat_tenPower ⟨e, he⟩
  refine ⟨_, _, hfloat, ?_, ?_⟩
  · rw [Nat.le_div_iff_mul_le (by positivity), Nat.mul_comm]
    exact Nat.mul_le_mul_right _ (Nat.log2_self_le (by positivity))
  · have hcast : ((10 ^ e * 2 ^ 52 / 2 ^ (10 ^ e).log2 : Nat) : ℚ) * 2 ^ (10 ^ e).log2 =
        10 ^ e * 2 ^ 52 := by exact_mod_cast hdiv
    rw [zpow_sub₀ two_ne_zero, zpow_natCast, mul_div_assoc', hcast]
    norm_num

/-! ## Scientific notation -/

theorem overflow_le_of_large (hm : m ≠ 0) (he : 1024 ≤ e) :
    overflow ≤ m * 10 ^ e := by
  have hone : (1 : ℚ) ≤ m := by exact_mod_cast Nat.one_le_iff_ne_zero.2 hm
  calc overflow ≤ 2 ^ (1024 : Int) := overflow_lt.le
    _ ≤ 2 ^ e := zpow_le_zpow_right₀ one_le_two he
    _ ≤ 10 ^ e := zpow_le_zpow_left₀ (by omega) (by norm_num) (by norm_num)
    _ ≤ m * 10 ^ e := le_mul_of_one_le_left (by positivity) hone

theorem lt_of_small (he : e ≤ 0) (hsum : m.log2 + 1 + e ≤ -1075) :
    (m : ℚ) * 10 ^ e < 2 ^ (-1075 : Int) := by
  have hm : (m : ℚ) < 2 ^ ((m.log2 : Int) + 1) := by
    exact_mod_cast (Nat.lt_log2_self : m < 2 ^ (m.log2 + 1))
  have hten : (10 : ℚ) ^ e ≤ 2 ^ e := by
    obtain ⟨k, rfl⟩ := Int.exists_eq_neg_ofNat he
    rw [zpow_neg, zpow_neg, zpow_natCast, zpow_natCast]
    exact inv_anti₀ (by positivity) (pow_le_pow_left₀ (by norm_num) (by norm_num) k)
  calc (m : ℚ) * 10 ^ e ≤ m * 2 ^ e := mul_le_mul_of_nonneg_left hten (by positivity)
    _ < 2 ^ ((m.log2 : Int) + 1) * 2 ^ e := mul_lt_mul_of_pos_right hm (by positivity)
    _ = 2 ^ ((m.log2 : Int) + 1 + e) := (zpow_add₀ two_ne_zero _ _).symm
    _ ≤ 2 ^ (-1075 : Int) := zpow_le_zpow_right₀ one_le_two hsum

/-- A number in scientific notation is computed as a product or a quotient, unless its exponent
shows that it is too large or too small. -/
theorem nearest_ofModel (m : Nat) (e : Int) :
    Nearest (m * 10 ^ e) (.ofModel (Float.Model.ofScientific m e)) := by
  unfold Float.Model.ofScientific UnpackedFloat.ofScientific
  have hbits : (2 : Int) ^ Format.binary64.exponentBits = 2048 := rfl
  by_cases hm : m = 0
  · rw [dif_pos hm, hm, Nat.cast_zero, zero_mul]
    exact nearest_zero le_rfl (by positivity)
  rw [dif_neg hm, hbits]
  split_ifs with hlarge hsmall hpos
  · exact nearest_infinity (overflow_le_of_large hm (by omega))
  · exact nearest_zero (by positivity) (lt_of_small (by omega) (by omega))
  · obtain ⟨k, rfl⟩ := Int.eq_ofNat_of_zero_le hpos
    have hfull : 2 ^ 52 ≤ m <<< 53 * 10 ^ k := by
      rw [Nat.shiftLeft_eq]
      calc 2 ^ 52 ≤ 2 ^ 53 := by decide
        _ ≤ m * 2 ^ 53 := Nat.le_mul_of_pos_left _ (Nat.pos_of_ne_zero hm)
        _ ≤ m * 2 ^ 53 * 10 ^ k := Nat.le_mul_of_pos_right _ (by positivity)
    have hvalue : (m : ℚ) * (10 : ℚ) ^ (k : Int) =
        (m <<< 53 * 10 ^ k : Nat) * 2 ^ (-53 + 0 : Int) := by
      rw [Nat.shiftLeft_eq, zpow_natCast, add_zero, zpow_neg]
      push_cast
      field_simp
    rw [hvalue]
    exact nearest_mul (by rw [Nat.shiftLeft_eq]; positivity) (by positivity) hfull
  · obtain ⟨k, rfl⟩ := Int.exists_eq_neg_ofNat (not_le.1 hpos).le
    have hvalue : (m : ℚ) * (10 : ℚ) ^ (-(k : Int)) = m / (10 ^ k : Nat) * 2 ^ (0 - 0 : Int) := by
      rw [zpow_neg, zpow_natCast, sub_zero, zpow_zero, mul_one, div_eq_mul_inv]
      push_cast
      rfl
    simp only [neg_neg, Int.toNat_natCast]
    rw [hvalue]
    exact nearest_div (Nat.pos_of_ne_zero hm) (by positivity)

theorem ofScientific_zero : ∀ (negative : Bool) (e : Fin 23),
    Float.ofScientific 0 negative e = .ofModel (.pack (.zero .positive)) := by
  decide +kernel

/-- A number in scientific notation is read as the nearest double. If it is made up of two doubles,
these are multiplied or divided. -/
theorem nearest_ofScientific (m : Nat) (negative : Bool) (e : Nat) :
    Nearest (m * 10 ^ (if negative then -(e : Int) else e)) (Float.ofScientific m negative e) := by
  by_cases hsmall : m < 2 ^ 53 ∧ e ≤ 22
  · have he : e < 23 := Nat.lt_succ_iff.2 hsmall.2
    rcases Nat.eq_zero_or_pos m with rfl | hm
    · rw [ofScientific_zero negative ⟨e, he⟩, Nat.cast_zero, zero_mul]
      exact nearest_zero le_rfl (by positivity)
    · rw [Float.ofScientific, dif_pos hsmall]
      have hwhole := isExact_toFloat hm hsmall.1
      cases negative
      · rw [if_neg Bool.false_ne_true, zpow_natCast]
        exact hwhole.mul (isExact_tenPower he)
      · rw [if_pos rfl, zpow_neg, zpow_natCast, ← div_eq_mul_inv]
        exact hwhole.div (isExact_tenPower he)
  · have hexponent : (if negative then Int.negOfNat e else Int.ofNat e) =
        if negative then -(e : Int) else e := by
      cases negative
      · rfl
      · exact Int.negOfNat_eq
    rw [Float.ofScientific, dif_neg hsmall, hexponent]
    exact nearest_ofModel m _

end Binary64

namespace Decimal

/-- The exact value of a decimal. -/
def exact (d : Decimal) : ℚ := d.digits * 10 ^ d.exponent

/-- A number is read as the nearest double. -/
theorem nearest_toFloat (d : Decimal) : Binary64.Nearest d.exact d.toFloat := by
  have hexponent : (if decide (d.exponent < 0) then -(d.exponent.natAbs : Int)
      else d.exponent.natAbs) = d.exponent := by
    simp only [decide_eq_true_eq]
    omega
  have hnearest := Binary64.nearest_ofScientific d.digits (d.exponent < 0) d.exponent.natAbs
  rw [hexponent] at hnearest
  exact hnearest

end Decimal

end DeskCalculator
