import HeapRetention.Text.Quantity
import Mathlib.Algebra.Order.Field.Basic
import Mathlib.Algebra.Order.Field.Power
import Mathlib.Tactic.FieldSimp
import Mathlib.Tactic.Linarith
import Mathlib.Tactic.Ring

/-! Positive doubles by their values. A double of normal size is a mantissa of 53 bits at an exponent; what
compares, converts and divides doubles is told here by the rational numbers they stand for. A result is the
exact one rounded to 53 binary digits, so it is exact wherever the exact one has no more. -/
namespace HeapRetention.Text
open Float.Model Float.Model.UnpackedFloat

/-- The positive double with a mantissa of 53 bits at an exponent. Its bits are those of the mantissa but for
the leading one, which counts as one more of the exponent. -/
structure IsNormal (x : Float) (m : Nat) (e : Int) : Prop where
  low : 2 ^ 52 ≤ m
  high : m < 2 ^ 53
  least : -1074 ≤ e
  most : e ≤ 971
  bits : (x.toBits.toNat : Int) = (e + 1074) * 2 ^ 52 + m

theorem unpackExponent_toNat (x : Float) :
    (@unpackExponent Format.binary64 x.toModel.toBits.toBitVec).toNat = x.toBits.toNat / 2 ^ 52 % 2 ^ 11 := by
  unfold unpackExponent
  rw [BitVec.toNat_cast, BitVec.extractLsb_toNat, Nat.shiftRight_eq_div_pow]
  rfl

theorem unpackMantissa_toNat (x : Float) :
    (@unpackMantissa Format.binary64 x.toModel.toBits.toBitVec).toNat = x.toBits.toNat % 2 ^ 52 := by
  unfold unpackMantissa
  rw [BitVec.toNat_cast, BitVec.extractLsb_toNat]
  rfl

theorem unpackSign_toNat (x : Float) :
    (@unpackSign Format.binary64 x.toModel.toBits.toBitVec).toNat = x.toBits.toNat / 2 ^ 63 % 2 := by
  unfold unpackSign
  rw [BitVec.toNat_cast, BitVec.extractLsb_toNat, Nat.shiftRight_eq_div_pow]
  rfl

theorem packComponents_toNat (exponent : BitVec 11) (fraction : BitVec 52) :
    (packComponents Format.binary64 .positive exponent fraction).toNat =
      exponent.toNat * 2 ^ 52 + fraction.toNat := by
  have hjoined := Nat.shiftLeft_add_eq_or_of_lt fraction.isLt exponent.toNat
  rw [Nat.shiftLeft_eq] at hjoined
  unfold packComponents
  rw [BitVec.toNat_append, BitVec.toNat_append]
  change (0 <<< 11 ||| exponent.toNat) <<< 52 ||| fraction.toNat = _
  rw [Nat.zero_shiftLeft, Nat.zero_or, Nat.shiftLeft_eq]
  exact hjoined.symm

theorem isNormal_pack {m : Nat} {e : Int} (low : 2 ^ 52 ≤ m) (high : m < 2 ^ 53) (least : -1074 ≤ e)
    (most : e ≤ 971) (hm : 0 < m) : IsNormal (.ofModel (.pack (.finite .positive m e hm))) m e where
  low := low
  high := high
  least := least
  most := most
  bits := by
    have hlog : m.log2 + 1 = 53 := congrArg (· + 1) ((Nat.log2_eq_iff hm.ne').mpr ⟨low, high⟩)
    have hexponent : ¬2 ^ 11 ≤ (e + 1023 + 52).toNat + 1 := by omega
    have hpack : UnpackedFloat.pack Format.binary64 (.finite .positive m e hm) =
        packComponents Format.binary64 .positive (BitVec.ofNat _ (e + 1023 + 52).toNat) (BitVec.ofNat _ m) :=
      (if_neg hexponent).trans (if_pos hlog)
    have hbits := packComponents_toNat (BitVec.ofNat 11 (e + 1023 + 52).toNat) (BitVec.ofNat 52 m)
    rw [BitVec.toNat_ofNat, BitVec.toNat_ofNat, ← hpack] at hbits
    change ((UnpackedFloat.pack Format.binary64 (.finite .positive m e hm)).toNat : Int) = _
    rw [hbits]
    omega

namespace IsNormal
variable {x y : Float} {m n : Nat} {e f : Int}

theorem pos (h : IsNormal x m e) : 0 < m :=
  (Nat.two_pow_pos 52).trans_le h.low

/-- The three fields of the bits: fraction, biased exponent and sign. -/
theorem fields (h : IsNormal x m e) :
    x.toBits.toNat % 2 ^ 52 + 2 ^ 52 = m ∧ ((x.toBits.toNat / 2 ^ 52 % 2 ^ 11 : Nat) : Int) = e + 1075 ∧
      x.toBits.toNat / 2 ^ 63 = 0 := by
  obtain ⟨low, high, least, most, bits⟩ := h
  omega

theorem ofFloat (h : IsNormal x m e) : Binary.ofFloat x = ⟨m, e⟩ := by
  obtain ⟨hfraction, hbiased, -⟩ := h.fields
  have hleast := h.least
  unfold Binary.ofFloat
  change (if x.toBits.toNat / 2 ^ 52 % 2 ^ 11 = 0 then _ else
    (⟨x.toBits.toNat % 2 ^ 52 + 2 ^ 52, Int.ofNat (x.toBits.toNat / 2 ^ 52 % 2 ^ 11) - 1075⟩ : Binary)) = _
  rw [if_neg (by omega), hfraction]
  congr 1
  change ((x.toBits.toNat / 2 ^ 52 % 2 ^ 11 : Nat) : Int) - 1075 = e
  omega

theorem isNegative (h : IsNormal x m e) : isNegative x = false := by
  obtain ⟨-, -, hsign⟩ := h.fields
  unfold Text.isNegative
  change decide (x.toBits.toNat / 2 ^ 63 = 1) = false
  rw [hsign]
  rfl

/-- An operation works with the mantissa and the exponent. -/
theorem unpack (h : IsNormal x m e) : x.toModel.unpack = .finite .positive m e h.pos := by
  obtain ⟨hfraction, hbiased, hsign⟩ := h.fields
  have hleast := h.least
  have hmost := h.most
  have hexponent := unpackExponent_toNat x
  have hpositive : @unpackSign Format.binary64 x.toModel.toBits.toBitVec = 0#1 := by
    apply BitVec.eq_of_toNat_eq
    rw [unpackSign_toNat]
    change x.toBits.toNat / 2 ^ 63 % 2 = 0
    rw [hsign]
  -- neither the exponent of the infinities nor that of zero
  have hfinite : ¬@unpackExponent Format.binary64 x.toModel.toBits.toBitVec = -1#11 := by
    intro heq
    rw [heq] at hexponent
    change 2047 = _ at hexponent
    omega
  have hwhole : ¬@unpackExponent Format.binary64 x.toModel.toBits.toBitVec = 0#11 := by
    intro heq
    rw [heq] at hexponent
    change 0 = _ at hexponent
    omega
  have hleading : (1#1 ++ @unpackMantissa Format.binary64 x.toModel.toBits.toBitVec).toNat = m := by
    rw [BitVec.toNat_append, unpackMantissa_toNat, ← Nat.shiftLeft_add_eq_or_of_lt (Nat.mod_lt _ (by decide))]
    change 2 ^ 52 + x.toBits.toNat % 2 ^ 52 = m
    omega
  unfold Float.Model.unpack UnpackedFloat.unpack
  dsimp only
  rw [if_neg hfinite, if_neg hwhole, hpositive]
  congr 1
  rw [hexponent]
  change ((x.toBits.toNat / 2 ^ 52 % 2 ^ 11 : Nat) : Int) - 1075 = e
  omega

theorem isNaN (h : IsNormal x m e) : x.isNaN = false := by
  unfold Float.isNaN Float.Model.isNaN
  rw [h.unpack]
  rfl

theorem isInf (h : IsNormal x m e) : x.isInf = false := by
  unfold Float.isInf Float.Model.isInf
  rw [h.unpack]
  rfl

theorem lt_iff (hx : IsNormal x m e) (hy : IsNormal y n f) : x < y ↔ e < f ∨ e = f ∧ m < n := by
  change decide (UnpackedFloat.lt x.toModel.unpack y.toModel.unpack = true) = true ↔ _
  rw [hx.unpack, hy.unpack, decide_eq_true_iff]
  unfold UnpackedFloat.lt UnpackedFloat.compare
  simp only [beq_iff_eq, Option.some.injEq, Ordering.then_eq_lt, compare_lt_iff_lt, compare_eq_iff_eq]

theorem value_lt_of_exponent_lt (hm : m < 2 ^ 53) (hn : 2 ^ 52 ≤ n) (h : e < f) :
    (m : ℚ) * 2 ^ e < n * 2 ^ f := by
  have hpos : (0 : ℚ) < 2 ^ e := zpow_pos two_pos e
  have hexponent : (2 : ℚ) * 2 ^ e ≤ 2 ^ f := by
    rw [← zpow_one_add₀ two_ne_zero]
    exact zpow_le_zpow_right₀ one_le_two (by omega)
  have hmost : (m : ℚ) < 2 ^ 53 := by exact_mod_cast hm
  have hleast : (2 : ℚ) ^ 52 ≤ n := by exact_mod_cast hn
  calc (m : ℚ) * 2 ^ e < 2 ^ 53 * 2 ^ e := mul_lt_mul_of_pos_right hmost hpos
    _ = 2 ^ 52 * (2 * 2 ^ e) := by ring
    _ ≤ n * 2 ^ f := mul_le_mul hleast hexponent (by positivity) (by positivity)

theorem lt_iff_value_lt (hx : IsNormal x m e) (hy : IsNormal y n f) :
    x < y ↔ (m : ℚ) * 2 ^ e < n * 2 ^ f := by
  rw [hx.lt_iff hy]
  rcases lt_trichotomy e f with hlt | rfl | hgt
  · exact iff_of_true (Or.inl hlt) (value_lt_of_exponent_lt hx.high hy.low hlt)
  · rw [mul_lt_mul_iff_left₀ (zpow_pos two_pos e), Nat.cast_lt]
    simp only [lt_irrefl, true_and, false_or]
  · refine iff_of_false ?_ (value_lt_of_exponent_lt hy.high hx.low hgt).not_gt
    omega

end IsNormal

/-- How far a number lies above a mantissa, as an accuracy tells. -/
def Tells : Accuracy → ℚ → Prop
  | .exact, r => r = 0
  | .inexact .lt, r => 0 < r ∧ r < 1 / 2
  | .inexact .eq, r => r = 1 / 2
  | .inexact .gt, r => 1 / 2 < r ∧ r < 1

theorem Tells.bounds {accuracy : Accuracy} {r : ℚ} (h : Tells accuracy r) : 0 ≤ r ∧ r < 1 := by
  match accuracy with
  | .exact => exact ⟨h.ge, h.trans_lt one_pos⟩
  | .inexact .lt => exact ⟨h.1.le, h.2.trans one_half_lt_one⟩
  | .inexact .eq => exact ⟨h.symm ▸ one_half_pos.le, h.trans_lt one_half_lt_one⟩
  | .inexact .gt => exact ⟨(one_half_pos.trans h.1).le, h.2⟩

theorem tells_ofFraction {num den : Nat} (h : num < den) :
    Tells (accuracyOfFraction num den) (num / den) := by
  have hden : (0 : ℚ) < den := by exact_mod_cast (Nat.zero_le num).trans_lt h
  unfold accuracyOfFraction
  split
  · next hzero => rw [hzero, Tells, Nat.cast_zero, zero_div]
  · next hne =>
    have hnum : (0 : ℚ) < num := by exact_mod_cast Nat.pos_of_ne_zero hne
    have hlt : (num : ℚ) < den := by exact_mod_cast h
    cases hcompare : compare (2 * num) den with
    | lt =>
      have htwice : (2 * num : ℚ) < den := by exact_mod_cast compare_lt_iff_lt.mp hcompare
      refine ⟨div_pos hnum hden, (div_lt_iff₀ hden).mpr ?_⟩
      linarith
    | eq =>
      have htwice : (2 * num : ℚ) = den := by exact_mod_cast compare_eq_iff_eq.mp hcompare
      refine (div_eq_iff hden.ne').mpr ?_
      linarith
    | gt =>
      have htwice : (den : ℚ) < 2 * num := by exact_mod_cast compare_gt_iff_gt.mp hcompare
      refine ⟨(lt_div_iff₀ hden).mpr ?_, (div_lt_one hden).mpr hlt⟩
      linarith

/-- An extended mantissa stands for a number if its residual bits tell where above the mantissa that lies. -/
def StandsFor (em : ExtendedMantissa) (t : ℚ) : Prop :=
  Tells em.accuracy (t - em.mantissa)

namespace StandsFor
variable {em : ExtendedMantissa} {t : ℚ}

theorem ofMantissaAndAccuracy {m : Nat} {accuracy : Accuracy} {r : ℚ} (h : Tells accuracy r) :
    StandsFor (.ofMantissaAndAccuracy m accuracy) (m + r) := by
  unfold StandsFor
  match accuracy with
  | .exact | .inexact .lt | .inexact .eq | .inexact .gt =>
    change Tells _ (m + r - m)
    rwa [add_sub_cancel_left]

theorem shiftRightOne (h : StandsFor em t) : StandsFor em.shiftRightOne (t / 2) := by
  obtain ⟨m, roundBit, stickyBit⟩ := em
  have hsplit : (m : ℚ) = 2 * (m / 2 : Nat) + (m % 2 : Nat) := by
    exact_mod_cast (Nat.div_add_mod m 2).symm
  -- the last bit of the mantissa becomes the round bit, which goes into the sticky bit
  rcases Nat.mod_two_eq_zero_or_one m with hbit | hbit <;> rw [hbit] at hsplit <;>
    cases roundBit <;> cases stickyBit <;>
    simp [StandsFor, Tells, ExtendedMantissa.accuracy, ExtendedMantissa.shiftRightOne, hbit] at h hsplit ⊢ <;>
    first | linarith | exact ⟨by linarith, by linarith⟩

theorem shiftRight (h : StandsFor em t) (n : Nat) : StandsFor (em >>> n) (t / 2 ^ n) := by
  induction n with
  | zero =>
    rw [pow_zero, div_one]
    exact h
  | succ n ih =>
    rw [pow_succ, ← div_div]
    exact ih.shiftRightOne

/-- The rounded mantissa is next to the number. -/
theorem abs_rounded_sub_le (h : StandsFor em t) : |(em.roundedMantissa : ℚ) - t| ≤ 1 / 2 := by
  obtain ⟨m, roundBit, stickyBit⟩ := em
  have hbit : ((m % 2 : Nat) : ℚ) = 0 ∨ ((m % 2 : Nat) : ℚ) = 1 := by
    exact_mod_cast Nat.mod_two_eq_zero_or_one m
  rw [abs_le]
  cases roundBit <;> cases stickyBit <;>
    simp [StandsFor, Tells, ExtendedMantissa.accuracy, ExtendedMantissa.roundedMantissa,
      Accuracy.roundToNearestEven] at h ⊢
  · constructor <;> linarith
  · constructor <;> linarith
  · rcases hbit with hbit | hbit <;> rw [hbit] <;> constructor <;> linarith
  · constructor <;> linarith

end StandsFor

/-- `v` is `q` rounded to 53 binary digits: a multiple of the last of these digits, next to `q`. -/
def Rounds (v q : ℚ) : Prop :=
  ∃ (r : ℕ) (e : ℤ), v = r * 2 ^ e ∧ 2 ^ 52 * 2 ^ e ≤ q ∧ q < 2 ^ 53 * 2 ^ e ∧ |v - q| ≤ 2 ^ e / 2

namespace Rounds
variable {v q : ℚ}

/-- The error is at most one part in `2 ^ 53`. -/
theorem abs_sub_le (h : Rounds v q) : 2 ^ 53 * |v - q| ≤ q := by
  obtain ⟨r, e, -, hlow, -, hnear⟩ := h
  linarith

/-- A number of 53 binary digits is not changed. -/
theorem eq_of_short (h : Rounds v q) {k : ℕ} {f : ℤ} (hk : k < 2 ^ 53) (hq : q = k * 2 ^ f) : v = q := by
  obtain ⟨r, e, rfl, hlow, -, hnear⟩ := h
  have hpos : (0 : ℚ) < 2 ^ e := zpow_pos two_pos e
  -- the last digit that is kept is not above the last digit of the number
  have hle : e ≤ f := by
    have hmost : (k : ℚ) < 2 ^ 53 := by exact_mod_cast hk
    have hexponent : (2 : ℚ) ^ (52 + e) < 2 ^ (53 + f) := by
      rw [zpow_add₀ two_ne_zero, zpow_add₀ two_ne_zero]
      exact hlow.trans_lt (hq ▸ mul_lt_mul_of_pos_right hmost (zpow_pos two_pos f))
    have := (zpow_lt_zpow_iff_right₀ one_lt_two).mp hexponent
    omega
  have hwhole : q = (k * 2 ^ (f - e).toNat : ℕ) * 2 ^ e := by
    rw [hq, Nat.cast_mul, Nat.cast_pow, Nat.cast_ofNat, ← zpow_natCast, mul_assoc, ← zpow_add₀ two_ne_zero]
    congr 2
    omega
  generalize k * 2 ^ (f - e).toNat = n at hwhole
  rw [hwhole, ← sub_mul, abs_mul, abs_of_pos hpos] at hnear
  have hclose : |(r : ℚ) - n| < 1 := by
    by_contra hfar
    linarith [mul_le_mul_of_nonneg_right (not_lt.mp hfar) hpos.le]
  have hsame : |(r : ℤ) - n| < 1 := by exact_mod_cast hclose
  rw [Int.abs_lt_one_iff, Int.sub_eq_zero, Int.natCast_inj] at hsame
  rw [hwhole, hsame]

/-- A number beyond 53 binary digits becomes a whole one. -/
theorem exists_natCast (h : Rounds v q) (hq : 2 ^ 53 ≤ q) : ∃ k : ℕ, v = k := by
  obtain ⟨r, e, rfl, -, hhigh, -⟩ := h
  have hexponent : (2 : ℚ) ^ (53 : ℤ) < 2 ^ (53 + e) := by
    rw [zpow_add₀ two_ne_zero]
    exact hq.trans_lt hhigh
  have hlt := (zpow_lt_zpow_iff_right₀ one_lt_two).mp hexponent
  refine ⟨r * 2 ^ e.toNat, ?_⟩
  rw [Nat.cast_mul, Nat.cast_pow, Nat.cast_ofNat, ← zpow_natCast, Int.toNat_of_nonneg (by omega)]

end Rounds

theorem shiftToTargetExponent_eq {m : Nat} {e : Int} {accuracy : Accuracy} (hm : 2 ^ 52 ≤ m)
    (hleast : -1074 ≤ e + (m.log2 - 52 : Nat)) :
    shiftToTargetExponent Format.binary64 m e accuracy =
      (ExtendedMantissa.ofMantissaAndAccuracy m accuracy >>> (m.log2 - 52), e + (m.log2 - 52 : Nat)) := by
  have hlog : 52 ≤ m.log2 := (Nat.le_log2 (by omega)).mpr hm
  have hshift : (Format.binary64.targetExponent (totalExponent m e) - e).toNat = m.log2 - 52 := by
    change (max ((m.log2 : Int) + 1 + e - 53) (-1074) - e).toNat = m.log2 - 52
    omega
  unfold shiftToTargetExponent shiftToExponent
  dsimp only
  rw [hshift]

/-- A mantissa that was rounded up to a power of two is shifted once more. -/
theorem shiftToTargetExponent_rounded {r : Nat} {e : Int} (hlow : 2 ^ 52 ≤ r) (hhigh : r ≤ 2 ^ 53)
    (hleast : -1074 ≤ e) : ∃ (n : Nat) (f : Int),
      (shiftToTargetExponent Format.binary64 r e .exact).1.mantissa = n ∧
      (shiftToTargetExponent Format.binary64 r e .exact).2 = f ∧
      2 ^ 52 ≤ n ∧ n < 2 ^ 53 ∧ e ≤ f ∧ f ≤ e + 1 ∧ (n : ℚ) * 2 ^ f = r * 2 ^ e := by
  rcases hhigh.lt_or_eq with hlt | rfl
  · have hlog : r.log2 - 52 = 0 := by
      rw [(Nat.log2_eq_iff (by omega)).mpr ⟨hlow, hlt⟩]
    rw [shiftToTargetExponent_eq hlow (by omega), hlog]
    exact ⟨r, e, rfl, Int.add_zero e, hlow, hlt, le_refl e, by omega, rfl⟩
  · rw [shiftToTargetExponent_eq hlow (by omega), Nat.log2_two_pow]
    refine ⟨2 ^ 52, e + 1, rfl, rfl, le_refl _, by decide, by omega, le_refl _, ?_⟩
    push_cast
    rw [zpow_add_one₀ two_ne_zero]
    ring

/-- A shift by what is beyond 53 bits leaves 53 bits before the point. -/
theorem shifted_bounds {m : Nat} {rest : ℚ} (hm : 2 ^ 52 ≤ m) (hzero : 0 ≤ rest) (hone : rest < 1) :
    2 ^ 52 ≤ (m + rest) / 2 ^ (m.log2 - 52) ∧ (m + rest) / 2 ^ (m.log2 - 52) < 2 ^ 53 := by
  have hlog : 52 ≤ m.log2 := (Nat.le_log2 (by omega)).mpr hm
  have hpow : (0 : ℚ) < 2 ^ (m.log2 - 52) := by positivity
  rw [le_div_iff₀ hpow, div_lt_iff₀ hpow, ← pow_add, ← pow_add]
  have hlow : (2 : ℚ) ^ (52 + (m.log2 - 52)) ≤ m := by
    rw [Nat.add_sub_cancel' hlog]
    exact_mod_cast Nat.log2_self_le (by omega : m ≠ 0)
  have hhigh : (m : ℚ) + 1 ≤ 2 ^ (53 + (m.log2 - 52)) := by
    rw [show 53 + (m.log2 - 52) = m.log2 + 1 by omega]
    exact_mod_cast Nat.lt_log2_self
  exact ⟨by linarith, by linarith⟩

/-- Rounding gives a mantissa of 53 bits, and the number next to the one that the accuracy tells. -/
theorem roundWithAccuracy_rounds {m : Nat} {e : Int} {accuracy : Accuracy} {rest : ℚ} (hm : 2 ^ 52 ≤ m)
    (hrest : Tells accuracy rest) (hleast : -1074 ≤ e + (m.log2 - 52 : Nat)) :
    ∃ (n : Nat) (f : Int) (hn : 0 < n),
      roundWithAccuracy Format.binary64 .positive m e accuracy = .finite .positive n f hn ∧
      2 ^ 52 ≤ n ∧ n < 2 ^ 53 ∧ e + (m.log2 - 52 : Nat) ≤ f ∧ f ≤ e + (m.log2 - 52 : Nat) + 1 ∧
      Rounds (n * 2 ^ f) ((m + rest) * 2 ^ e) := by
  obtain ⟨hzero, hone⟩ := hrest.bounds
  obtain ⟨hlow, hhigh⟩ := shifted_bounds hm hzero hone
  have hstands := (StandsFor.ofMantissaAndAccuracy hrest (m := m)).shiftRight (m.log2 - 52)
  have hnear := hstands.abs_rounded_sub_le
  unfold roundWithAccuracy
  rw [shiftToTargetExponent_eq hm hleast]
  dsimp only
  generalize (ExtendedMantissa.ofMantissaAndAccuracy m accuracy >>> (m.log2 - 52)).roundedMantissa = r
    at hnear ⊢
  generalize m.log2 - 52 = s at hleast hlow hhigh hnear ⊢
  obtain ⟨hbelow, habove⟩ := abs_le.mp hnear
  have hleast' : 2 ^ 52 ≤ r := by
    have : (2 : ℚ) ^ 52 < r + 1 := by linarith
    exact Nat.lt_succ_iff.mp (by exact_mod_cast this)
  have hmost : r ≤ 2 ^ 53 := by
    have : (r : ℚ) < 2 ^ 53 + 1 := by linarith
    exact Nat.lt_succ_iff.mp (by exact_mod_cast this)
  obtain ⟨n, f, hn, hf, hlow', hhigh', hle, hle', hvalue⟩ := shiftToTargetExponent_rounded hleast' hmost hleast
  rw [hn, hf, dif_neg (by omega)]
  refine ⟨n, f, by omega, rfl, hlow', hhigh', hle, hle', r, e + s, hvalue, ?_⟩
  have hscaled : ((m : ℚ) + rest) * 2 ^ e = (m + rest) / 2 ^ s * 2 ^ (e + s) := by
    rw [zpow_add₀ two_ne_zero, zpow_natCast]
    field_simp
  have hpos : (0 : ℚ) < 2 ^ (e + s) := by positivity
  rw [hvalue, hscaled, ← sub_mul, abs_mul, abs_of_pos hpos]
  refine ⟨mul_le_mul_of_nonneg_right hlow hpos.le, mul_lt_mul_of_pos_right hhigh hpos, ?_⟩
  linarith [mul_le_mul_of_nonneg_right hnear hpos.le]

/-- The positive double `x` has the value `v`. -/
def HasValue (x : Float) (v : ℚ) : Prop :=
  ∃ (m : Nat) (e : Int), IsNormal x m e ∧ v = m * 2 ^ e

theorem hasValue_pack {m : Nat} {e : Int} {accuracy : Accuracy} {rest : ℚ} (hm : 2 ^ 52 ≤ m)
    (hrest : Tells accuracy rest) (hleast : -1074 ≤ e + (m.log2 - 52 : Nat))
    (hmost : e + (m.log2 - 52 : Nat) ≤ 970) :
    ∃ v, HasValue (.ofModel (.pack (roundWithAccuracy Format.binary64 .positive m e accuracy))) v ∧
      Rounds v ((m + rest) * 2 ^ e) := by
  obtain ⟨n, f, hn, hround, hlow, hhigh, hle, hle', hrounds⟩ := roundWithAccuracy_rounds hm hrest hleast
  rw [hround]
  exact ⟨n * 2 ^ f, ⟨n, f, isNormal_pack hlow hhigh (by omega) (by omega) hn, rfl⟩, hrounds⟩

/-- A short natural number is shifted up to 53 bits before it is rounded. -/
theorem toFloat_eq {n : Nat} (hn : 0 < n) (hmax : n < 2 ^ 64) :
    n.toUInt64.toFloat = .ofModel (.pack (roundWithAccuracy Format.binary64 .positive
      (n <<< (52 - n.log2)) (0 - (52 - n.log2 : Nat)) .exact)) := by
  have htoNat : n.toUInt64.toNat = n := Nat.mod_eq_of_lt hmax
  have hcompare : compare (n : Int) 0 = .gt := compare_gt_iff_gt.mpr (by omega)
  have hlog : n.log2 < 64 := (Nat.log2_lt hn.ne').mpr hmax
  have hshift : (0 - Format.binary64.targetExponent (totalExponent n 0)).toNat = 52 - n.log2 := by
    change (0 - max ((n.log2 : Int) + 1 + 0 - 53) (-1074)).toNat = 52 - n.log2
    omega
  unfold UInt64.toFloat Float.Model.ofUInt64 UnpackedFloat.ofUInt64 UnpackedFloat.ofNat UnpackedFloat.ofInt
    UnpackedFloat.normalize UnpackedFloat.round decreaseExponent
  rw [htoNat, hcompare]
  dsimp only
  rw [Int.toNat_natCast, hshift]

theorem shifted_log2 {n : Nat} (hn : 0 < n) (hmax : n < 2 ^ 64) :
    2 ^ 52 ≤ n <<< (52 - n.log2) ∧ (n <<< (52 - n.log2)).log2 < 64 := by
  have hlow : 2 ^ 52 ≤ n <<< (52 - n.log2) := by
    rw [Nat.shiftLeft_eq]
    calc 2 ^ 52 ≤ 2 ^ (n.log2 + (52 - n.log2)) := Nat.pow_le_pow_right two_pos (by omega)
      _ = 2 ^ n.log2 * 2 ^ (52 - n.log2) := pow_add 2 _ _
      _ ≤ n * 2 ^ (52 - n.log2) := Nat.mul_le_mul_right _ (Nat.log2_self_le hn.ne')
  refine ⟨hlow, ?_⟩
  rw [Nat.log2_lt (by omega), Nat.shiftLeft_eq]
  rcases Nat.lt_or_ge n.log2 52 with hshort | hlong
  · calc n * 2 ^ (52 - n.log2) < 2 ^ (n.log2 + 1) * 2 ^ (52 - n.log2) :=
          Nat.mul_lt_mul_of_pos_right Nat.lt_log2_self (Nat.two_pow_pos _)
      _ = 2 ^ (n.log2 + 1 + (52 - n.log2)) := (pow_add 2 _ _).symm
      _ ≤ 2 ^ 64 := Nat.pow_le_pow_right two_pos (by omega)
  · rwa [Nat.sub_eq_zero_of_le hlong, pow_zero, mul_one]

/-- A natural number becomes the double next to it. -/
theorem hasValue_toFloat {n : Nat} (hn : 0 < n) (hmax : n < 2 ^ 64) :
    ∃ v, HasValue n.toUInt64.toFloat v ∧ Rounds v n := by
  obtain ⟨hm, hlog⟩ := shifted_log2 hn hmax
  obtain ⟨v, hv, hrounds⟩ := @hasValue_pack _ (0 - (52 - n.log2 : Nat)) .exact 0 hm rfl (by omega) (by omega)
  rw [← toFloat_eq hn hmax] at hv
  refine ⟨v, hv, ?_⟩
  rwa [Nat.shiftLeft_eq, add_zero, zero_sub, Nat.cast_mul, Nat.cast_pow, Nat.cast_ofNat, zpow_neg,
    zpow_natCast, mul_inv_cancel_right₀ (by positivity)] at hrounds

namespace IsNormal
variable {x y : Float} {m n : Nat} {e f : Int}

theorem div_eq (hx : IsNormal x m e) (hy : IsNormal y n f) (hleast : -1000 ≤ e - f) :
    x / y = .ofModel (.pack (roundWithAccuracy Format.binary64 .positive
      ((m <<< 53) / n) (e - f - 53) (accuracyOfFraction ((m <<< 53) % n) n))) := by
  have hlogm : m.log2 = 52 := (Nat.log2_eq_iff hx.pos.ne').mpr ⟨hx.low, hx.high⟩
  have hlogn : n.log2 = 52 := (Nat.log2_eq_iff hy.pos.ne').mpr ⟨hy.low, hy.high⟩
  have htarget : Format.binary64.targetExponent (totalExponent m e - totalExponent n f) = e - f - 53 := by
    unfold totalExponent
    rw [hlogm, hlogn]
    change max (52 + 1 + e - (52 + 1 + f) - 53) (-1074) = e - f - 53
    omega
  have hshift : (e - f - (e - f - 53)).toNat = 53 := by omega
  have hcore : divCore Format.binary64 m e n f =
      ((m <<< 53) / n, e - f - 53, accuracyOfFraction ((m <<< 53) % n) n) := by
    unfold divCore
    rw [htarget, min_eq_right (by omega)]
    dsimp only
    rw [hshift]
  change Float.ofModel (.pack (UnpackedFloat.div Format.binary64 x.toModel.unpack y.toModel.unpack)) = _
  rw [hx.unpack, hy.unpack]
  change Float.ofModel (.pack (roundWithAccuracy Format.binary64 .positive (divCore Format.binary64 m e n f).1
    (divCore Format.binary64 m e n f).2.1 (divCore Format.binary64 m e n f).2.2)) = _
  rw [hcore]

/-- The quotient of two doubles is the double next to the quotient of their values. -/
theorem hasValue_div (hx : IsNormal x m e) (hy : IsNormal y n f) (hleast : -1000 ≤ e - f)
    (hmost : e - f ≤ 1000) : ∃ v, HasValue (x / y) v ∧ Rounds v (m * 2 ^ e / (n * 2 ^ f)) := by
  have hlow := hx.low
  have hhigh := hx.high
  have hlow' := hy.low
  have hhigh' := hy.high
  have hdiv := hx.div_eq hy hleast
  generalize hshifted : m <<< 53 = a at hdiv
  rw [Nat.shiftLeft_eq] at hshifted
  have hm : 2 ^ 52 ≤ a / n := by
    rw [Nat.le_div_iff_mul_le hy.pos]
    omega
  have hlog : (a / n).log2 < 54 := by
    rw [Nat.log2_lt (by omega), Nat.div_lt_iff_lt_mul hy.pos]
    omega
  have hrest := tells_ofFraction (Nat.mod_lt a hy.pos)
  obtain ⟨v, hv, hrounds⟩ := @hasValue_pack (a / n) (e - f - 53) _ _ hm hrest (by omega) (by omega)
  rw [← hdiv] at hv
  refine ⟨v, hv, ?_⟩
  have hn : (n : ℚ) ≠ 0 := by exact_mod_cast hy.pos.ne'
  have hquotient : ((a / n : Nat) : ℚ) + (a % n : Nat) / n = m * 2 ^ 53 / n := by
    rw [eq_div_iff hn, add_mul, div_mul_cancel₀ _ hn, mul_comm]
    exact_mod_cast (Nat.div_add_mod a n).trans hshifted.symm
  have hexponent : (2 : ℚ) ^ (e - f - 53) = 2 ^ e / 2 ^ f / 2 ^ 53 := by
    rw [zpow_sub₀ two_ne_zero, zpow_sub₀ two_ne_zero]
    rfl
  rw [hquotient, hexponent] at hrounds
  convert hrounds using 1
  field_simp

theorem exponent_bounds (h : IsNormal x m e) (hlow : (1 : ℚ) ≤ m * 2 ^ e)
    (hhigh : (m : ℚ) * 2 ^ e < 2 ^ 100) : -53 < e ∧ e < 48 := by
  have hpos : (0 : ℚ) < 2 ^ e := zpow_pos two_pos e
  have hleast : (2 : ℚ) ^ 52 ≤ m := by exact_mod_cast h.low
  have hmost : (m : ℚ) < 2 ^ 53 := by exact_mod_cast h.high
  have habove : (2 : ℚ) ^ (0 : ℤ) < 2 ^ (53 + e) := by
    rw [zpow_add₀ two_ne_zero]
    exact hlow.trans_lt (mul_lt_mul_of_pos_right hmost hpos)
  have hbelow : (2 : ℚ) ^ (52 + e) < 2 ^ (100 : ℤ) := by
    rw [zpow_add₀ two_ne_zero]
    exact (mul_le_mul_of_nonneg_right hleast hpos.le).trans_lt hhigh
  have habove' := (zpow_lt_zpow_iff_right₀ one_lt_two).mp habove
  have hbelow' := (zpow_lt_zpow_iff_right₀ one_lt_two).mp hbelow
  omega

end IsNormal

namespace HasValue
variable {x y : Float} {v w : ℚ}

/-- Doubles compare like their values. -/
theorem lt_iff (hx : HasValue x v) (hy : HasValue y w) : x < y ↔ v < w := by
  obtain ⟨m, e, hx, rfl⟩ := hx
  obtain ⟨n, f, hy, rfl⟩ := hy
  exact hx.lt_iff_value_lt hy

/-- Doubles of moderate size divide like their values, but for the rounding. -/
theorem div (hx : HasValue x v) (hy : HasValue y w) (hv : 1 ≤ v) (hv' : v < 2 ^ 100) (hw : 1 ≤ w)
    (hw' : w < 2 ^ 100) : ∃ z, HasValue (x / y) z ∧ Rounds z (v / w) := by
  obtain ⟨m, e, hx, rfl⟩ := hx
  obtain ⟨n, f, hy, rfl⟩ := hy
  have he := hx.exponent_bounds hv hv'
  have hf := hy.exponent_bounds hw hw'
  exact hx.hasValue_div hy (by omega) (by omega)

end HasValue

end HeapRetention.Text
