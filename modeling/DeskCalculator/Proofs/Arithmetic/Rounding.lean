import DeskCalculator.Proofs.Arithmetic.Doubles

/-!
# Rounding to 53 bits

Arithmetic computes a mantissa and two more bits, which tell what is behind it (`Truncates`). The
mantissa is shifted until it has 53 bits, or fewer if the exponent would be too small, and is
rounded.

**Theorem (`roundsTo_shiftToTargetExponent`).** The rounded mantissa is the whole number nearest to
the exact result in units of the last place (`RoundsTo`). A tie goes to the even one.

**Theorem (`ofFloat_roundWithAccuracy`).** The double has this mantissa. If rounding made it a power
of two with 54 bits, it is halved and the exponent is raised (`carry`).
-/

namespace DeskCalculator.Binary64

open Float.Model UnpackedFloat

variable {em : ExtendedMantissa} {x : ℚ} {n : Nat}

/-! ## Rounding to whole numbers -/

/-- No whole number is nearer to `x` than `n`, and of two the even one is taken. -/
def NearestWhole (n : Nat) (x : ℚ) : Prop := |n - x| ≤ 1 / 2 ∧ (|n - x| = 1 / 2 → Even n)

theorem nearestWhole_of_lt (h : |n - x| < 1 / 2) : NearestWhole n x :=
  ⟨h.le, fun heq => absurd heq h.ne⟩

theorem NearestWhole.le_dist (h : NearestWhole n x) (k : ℤ) :
    |n - x| ≤ |k - x| ∧ (|k - x| = |n - x| → k = n ∨ Even n) := by
  by_cases hk : k = n
  · subst hk
    simp
  · have hone : (1 : ℚ) ≤ |(k : ℚ) - n| := by
      have : 1 ≤ |k - (n : ℤ)| := Int.one_le_abs (sub_ne_zero.2 hk)
      exact_mod_cast this
    have htriangle := abs_sub_le (k : ℚ) x n
    rw [abs_sub_comm x n] at htriangle
    have hhalf := h.1
    refine ⟨by linarith, fun heq => .inr (h.2 ?_)⟩
    linarith

theorem NearestWhole.le_of_lt {k : Nat} (h : NearestWhole n x) (hx : x < k) : n ≤ k := by
  have herror := abs_le.1 h.1
  have hlt : (n : ℚ) < k + 1 := by linarith
  exact Nat.lt_succ_iff.1 (by exact_mod_cast hlt)

theorem NearestWhole.le_of_le {k : Nat} (h : NearestWhole n x) (hx : k ≤ x) : k ≤ n := by
  have herror := abs_le.1 h.1
  have hlt : (k : ℚ) < n + 1 := by linarith
  exact Nat.lt_succ_iff.1 (by exact_mod_cast hlt)

/-- The mantissa is `x` without its fraction, and the two bits behind it tell where `x` lies between
the mantissa and the next one. -/
def Truncates (em : ExtendedMantissa) (x : ℚ) : Prop :=
  match em.roundBit, em.stickyBit with
  | false, false => x = em.mantissa
  | false, true => em.mantissa < x ∧ x < em.mantissa + 1 / 2
  | true, false => x = em.mantissa + 1 / 2
  | true, true => em.mantissa + 1 / 2 < x ∧ x < em.mantissa + 1

namespace Truncates

theorem bounds (h : Truncates em x) : em.mantissa ≤ x ∧ x < em.mantissa + 1 := by
  obtain ⟨m, roundBit, stickyBit⟩ := em
  cases roundBit <;> cases stickyBit <;> simp only [Truncates] at h ⊢ <;> constructor <;> linarith

/-- The two bits are enough to round. -/
theorem nearestWhole (h : Truncates em x) : NearestWhole em.roundedMantissa x := by
  obtain ⟨m, roundBit, stickyBit⟩ := em
  simp only [ExtendedMantissa.roundedMantissa]
  cases roundBit <;> cases stickyBit <;>
    simp only [Truncates, ExtendedMantissa.accuracy, Accuracy.roundToNearestEven] at h ⊢
  · exact nearestWhole_of_lt (by rw [h]; norm_num)
  · exact nearestWhole_of_lt (by rw [abs_lt]; constructor <;> linarith)
  · -- a tie: an odd mantissa goes up
    obtain ⟨k, rfl | rfl⟩ := m.even_or_odd'
    · refine ⟨?_, fun _ => ?_⟩
      · rw [h]
        norm_num
      · simp
    · refine ⟨?_, fun _ => ?_⟩
      · rw [h, show (2 * k + 1) % 2 = 1 by omega]
        push_cast
        norm_num
      · exact ⟨k + 1, by omega⟩
  · exact nearestWhole_of_lt (by push_cast; rw [abs_lt]; constructor <;> linarith)

theorem shiftRightOne (h : Truncates em x) : Truncates em.shiftRightOne (x / 2) := by
  obtain ⟨m, roundBit, stickyBit⟩ := em
  obtain ⟨k, rfl | rfl⟩ := m.even_or_odd'
  · have hshift : ExtendedMantissa.shiftRightOne ⟨2 * k, roundBit, stickyBit⟩ =
        ⟨k, false, roundBit || stickyBit⟩ := by
      simp [ExtendedMantissa.shiftRightOne]
    rw [hshift]
    cases roundBit <;> cases stickyBit <;> simp only [Truncates, Bool.or_self, Bool.or_true,
      Bool.or_false] at h ⊢ <;> push_cast at h
    · linarith
    · constructor <;> linarith
    · constructor <;> linarith
    · constructor <;> linarith
  · have hshift : ExtendedMantissa.shiftRightOne ⟨2 * k + 1, roundBit, stickyBit⟩ =
        ⟨k, true, roundBit || stickyBit⟩ := by
      simp [ExtendedMantissa.shiftRightOne]
      omega
    rw [hshift]
    cases roundBit <;> cases stickyBit <;> simp only [Truncates, Bool.or_self, Bool.or_true,
      Bool.or_false] at h ⊢ <;> push_cast at h
    · linarith
    · constructor <;> linarith
    · constructor <;> linarith
    · constructor <;> linarith

theorem shiftRight (h : Truncates em x) (k : Nat) : Truncates (em >>> k) (x / 2 ^ k) := by
  change Truncates (k.repeat ExtendedMantissa.shiftRightOne em) (x / 2 ^ k)
  induction k with
  | zero => simpa [Nat.repeat] using h
  | succ k ih =>
    rw [pow_succ, ← div_div]
    exact ih.shiftRightOne

theorem ofExact (m : Nat) : Truncates (.ofMantissaAndAccuracy m .exact) m := rfl

/-- A fraction is behind the mantissa with the accuracy that comparing it with one half gives. -/
theorem ofFraction (m : Nat) {a b : Nat} (h : a < b) :
    Truncates (.ofMantissaAndAccuracy m (accuracyOfFraction a b)) (m + a / b) := by
  have hb : (0 : ℚ) < b := by exact_mod_cast Nat.zero_lt_of_lt h
  unfold accuracyOfFraction
  by_cases hzero : a = 0
  · subst hzero
    simp [Truncates, ExtendedMantissa.ofMantissaAndAccuracy]
  · have hpos : (0 : ℚ) < a / b := div_pos (by exact_mod_cast Nat.pos_of_ne_zero hzero) hb
    have hone : (a : ℚ) / b < 1 := (div_lt_one hb).2 (by exact_mod_cast h)
    rw [if_neg hzero]
    rcases Nat.lt_trichotomy (2 * a) b with hhalf | hhalf | hhalf
    · have hless : (a : ℚ) / b < 1 / 2 := by
        rw [div_lt_div_iff₀ hb two_pos]
        exact_mod_cast (by omega : a * 2 < 1 * b)
      rw [Nat.compare_eq_lt.2 hhalf]
      simp only [Truncates, ExtendedMantissa.ofMantissaAndAccuracy]
      constructor <;> linarith
    · have hequal : (a : ℚ) / b = 1 / 2 := by
        rw [div_eq_div_iff hb.ne' two_ne_zero]
        exact_mod_cast (by omega : a * 2 = 1 * b)
      rw [Nat.compare_eq_eq.2 hhalf, hequal]
      rfl
    · have hmore : 1 / 2 < (a : ℚ) / b := by
        rw [div_lt_div_iff₀ two_pos hb]
        exact_mod_cast (by omega : 1 * b < a * 2)
      rw [Nat.compare_eq_gt.2 hhalf]
      simp only [Truncates, ExtendedMantissa.ofMantissaAndAccuracy]
      constructor <;> linarith

theorem ofQuotient (a : Nat) {b : Nat} (hb : 0 < b) :
    Truncates (.ofMantissaAndAccuracy (a / b) (accuracyOfFraction (a % b) b)) (a / b) := by
  have hdivision : (a : ℚ) / b = (a / b : Nat) + (a % b : Nat) / b := by
    have hsum : (a : ℚ) = b * (a / b : Nat) + (a % b : Nat) := by
      exact_mod_cast (Nat.div_add_mod a b).symm
    have hb' : (b : ℚ) ≠ 0 := by exact_mod_cast hb.ne'
    field_simp
    linarith
  rw [hdivision]
  exact ofFraction _ (Nat.mod_lt a hb)

end Truncates

/-! ## Rounding to 53 bits -/

variable {q : ℚ} {m : Nat} {e t : Int} {accuracy : Accuracy}

theorem targetExponent_eq (m : Nat) (e : Int) :
    Format.binary64.targetExponent (totalExponent m e) = max (m.log2 + e - 52) (-1074) := by
  simp only [Format.targetExponent, totalExponent, Format.mantissaBits, Format.minExponent]
  norm_num
  omega

theorem shiftToTargetExponent_eq {k : Nat} (accuracy : Accuracy)
    (h : (max (m.log2 + e - 52) (-1074) - e).toNat = k) :
    shiftToTargetExponent .binary64 m e accuracy =
      (ExtendedMantissa.ofMantissaAndAccuracy m accuracy >>> k, e + k) := by
  unfold shiftToTargetExponent shiftToExponent
  simp [targetExponent_eq, h]

theorem Truncates.bounds_of_accuracy (hx : Truncates (.ofMantissaAndAccuracy m accuracy) x) :
    m ≤ x ∧ x < m + 1 := by
  have hmantissa : (ExtendedMantissa.ofMantissaAndAccuracy m accuracy).mantissa = m := by
    cases accuracy with
    | exact => rfl
    | inexact order => cases order <;> rfl
  rw [← hmantissa]
  exact hx.bounds

/-- The number `q` is rounded to a multiple of `2 ^ t`. The multiple has no more than 53 bits, and
exactly as many if `2 ^ t` is not the smallest power. -/
structure RoundsTo (q : ℚ) (n : Nat) (t : Int) : Prop where
  nearest : NearestWhole n (q / 2 ^ t)
  le : n ≤ 2 ^ 53
  min_le : -1074 ≤ t
  normal : t = -1074 ∨ (2 ^ 52 ≤ n ∧ (2 : ℚ) ^ (t + 52) ≤ q)

/-- The first shift of rounding keeps 53 bits, and fewer if the exponent would be too small. -/
theorem roundsTo_shiftToTargetExponent
    (hx : Truncates (.ofMantissaAndAccuracy m accuracy) x)
    (he : e ≤ max (m.log2 + e - 52) (-1074)) :
    RoundsTo (x * 2 ^ e) (shiftToTargetExponent .binary64 m e accuracy).1.roundedMantissa
      (shiftToTargetExponent .binary64 m e accuracy).2 := by
  obtain ⟨k, hk⟩ : ∃ k : Nat, max (m.log2 + e - 52) (-1074) = e + k :=
    ⟨(max (m.log2 + e - 52) (-1074) - e).toNat, by omega⟩
  obtain ⟨hlow, hhigh⟩ := hx.bounds_of_accuracy
  have htwo : (0 : ℚ) < 2 ^ k := by positivity
  have hscale : x * 2 ^ e / 2 ^ (e + k) = x / 2 ^ k := by
    rw [zpow_add₀ two_ne_zero, zpow_natCast]
    field_simp
  have hnearest := (hx.shiftRight k).nearestWhole
  rw [shiftToTargetExponent_eq (k := k) accuracy (by omega)]
  refine ⟨hscale ▸ hnearest, hnearest.le_of_lt ?_, by omega, ?_⟩
  · have hbits : m + 1 ≤ 2 ^ 53 * 2 ^ k := by
      rw [← Nat.pow_add]
      exact Nat.le_trans Nat.lt_log2_self (Nat.pow_le_pow_right (by decide) (by omega))
    have hcast : (m : ℚ) + 1 ≤ (2 ^ 53 : Nat) * 2 ^ k := by exact_mod_cast hbits
    exact (div_lt_iff₀ htwo).2 (hhigh.trans_le hcast)
  · by_cases hmin : e + k = -1074
    · exact .inl hmin
    · -- without the smallest exponent the mantissa has more bits than are kept
      have hlog : m.log2 = 52 + k := by omega
      have hm : m ≠ 0 := by
        rintro rfl
        simp at hlog
        omega
      have hbits : 2 ^ 52 * 2 ^ k ≤ m := by
        rw [← Nat.pow_add, ← hlog]
        exact Nat.log2_self_le hm
      have hcast : ((2 ^ 52 : Nat) : ℚ) * 2 ^ k ≤ m := by exact_mod_cast hbits
      have hx' := hcast.trans hlow
      refine .inr ⟨hnearest.le_of_le ((le_div_iff₀ htwo).2 hx'), ?_⟩
      have hsplit : (2 : ℚ) ^ (e + k + 52) = (2 ^ 52 : Nat) * 2 ^ k * 2 ^ e := by
        rw [zpow_add₀ two_ne_zero, zpow_add₀ two_ne_zero, zpow_natCast]
        push_cast
        ring
      rw [hsplit]
      exact mul_le_mul_of_nonneg_right hx' (by positivity)

/-- A mantissa of 53 bits stays as it is. One that was rounded up to the next power of two gives a
bit to the exponent. -/
def carry (n : Nat) (t : Int) : Nat × Int := if n < 2 ^ 53 then (n, t) else (2 ^ 52, t + 1)

theorem carry_of_lt (h : n < 2 ^ 53) (t : Int) : carry n t = (n, t) := if_pos h

theorem carry_two_pow (t : Int) : carry (2 ^ 53) t = (2 ^ 52, t + 1) := if_neg (Nat.lt_irrefl _)

namespace RoundsTo

theorem lt_or_eq (h : RoundsTo q n t) : n < 2 ^ 53 ∨ n = 2 ^ 53 := Nat.lt_or_eq_of_le h.le

theorem regular (h : RoundsTo q n t) : Regular (carry n t).1 (carry n t).2 := by
  have hmin := h.min_le
  rcases h.lt_or_eq with hlt | rfl
  · rw [carry_of_lt hlt]
    exact ⟨hlt, hmin, (h.normal.imp_right And.left).symm⟩
  · rw [carry_two_pow]
    exact ⟨(by decide : 2 ^ 52 < 2 ^ 53), Int.le_add_one hmin, .inl (Nat.le_refl _)⟩

theorem value_carry (h : RoundsTo q n t) :
    ((carry n t).1 : ℚ) * 2 ^ (carry n t).2 = n * 2 ^ t := by
  rcases h.lt_or_eq with hlt | rfl
  · rw [carry_of_lt hlt]
  · rw [carry_two_pow]
    show ((2 ^ 52 : Nat) : ℚ) * 2 ^ (t + 1) = _
    rw [zpow_add₀ two_ne_zero]
    push_cast
    ring

theorem even_carry (h : RoundsTo q n t) (hn : Even n) : Even (carry n t).1 := by
  rcases h.lt_or_eq with hlt | rfl
  · rwa [carry_of_lt hlt]
  · rw [carry_two_pow]
    exact (by decide : Even (2 ^ 52))

/-- The second shift of rounding only passes on the bit that is carried. -/
theorem shiftToTargetExponent_exact (h : RoundsTo q n t) :
    shiftToTargetExponent .binary64 n t .exact =
      (⟨(carry n t).1, false, false⟩, (carry n t).2) := by
  have hmin := h.min_le
  rcases h.lt_or_eq with hlt | rfl
  · have hlog : n.log2 ≤ 52 := by
      by_cases hzero : n = 0
      · simp [hzero]
      · exact Nat.lt_succ_iff.1 ((Nat.log2_lt hzero).2 hlt)
    rw [shiftToTargetExponent_eq (k := 0) .exact (by omega), carry_of_lt hlt, Nat.cast_zero,
      add_zero]
    rfl
  · have hlog : (2 ^ 53).log2 = 53 := Nat.log2_two_pow
    rw [shiftToTargetExponent_eq (k := 1) .exact (by omega), carry_two_pow]
    rfl

end RoundsTo

/-- The double that rounding results in, if `em` and `t` are left by the first shift. -/
theorem ofFloat_roundWithAccuracy {em : ExtendedMantissa}
    (hfirst : shiftToTargetExponent .binary64 m e accuracy = (em, t))
    (h : RoundsTo q em.roundedMantissa t) :
    ofFloat (.ofModel (.pack (roundWithAccuracy .binary64 .positive m e accuracy))) =
      if (carry em.roundedMantissa t).2 ≤ 971 then
        .finite false (carry em.roundedMantissa t).1 (carry em.roundedMantissa t).2
      else .infinite false := by
  have hregular := h.regular
  simp only [roundWithAccuracy, hfirst, h.shiftToTargetExponent_exact]
  by_cases hzero : (carry em.roundedMantissa t).1 = 0
  · rw [dif_pos hzero, hzero, hregular.normal.resolve_left (by omega)]
    decide +kernel
  · rw [dif_neg hzero]
    exact ofFloat_pack hregular _

end DeskCalculator.Binary64
