import HeapRetention.Proofs.RoundedDoubles

/-! What the short texts of counts and sizes say. A number below the base is written in full. A larger one is
divided down as a double, but what is printed is what exact division gives: the largest unit that the number
reaches, and three significant digits next to the quotient. -/
namespace HeapRetention.Text

/-- The decimal `digits / 10 ^ places`, written out. -/
def decimalText (places digits : Nat) : String :=
  toString (digits / 10 ^ places) ++
    if places = 0 then "" else
      "." ++ String.ofList ((List.range places).reverse.map fun i => Nat.digitChar (digits / 10 ^ i % 10))

/-- A number in short: a decimal of a unit, which is known by its place in a list of units. -/
structure ShortForm where
  places : Nat
  digits : Nat
  unit : Nat

namespace ShortForm

def text (f : ShortForm) (units : List String) : String :=
  decimalText f.places f.digits ++ units.getD f.unit ""

/-- The short form of a number in one of several units, each so many times the one before: the largest unit
that the number reaches, and the decimal next to the quotient, with three significant digits as long as the
quotient is below a thousand. In the least unit the number stays whole. -/
structure Shows (f : ShortForm) (base count n : Nat) : Prop where
  unit_lt : f.unit < count
  reached : f.unit = 0 ∨ base ^ f.unit ≤ n
  largest : f.unit + 1 = count ∨ n < base ^ (f.unit + 1)
  places : f.places =
    if f.unit = 0 ∨ 100 * base ^ f.unit ≤ n then 0 else if 10 * base ^ f.unit ≤ n then 1 else 2
  below : 2 * (f.digits * base ^ f.unit) ≤ 2 * (n * 10 ^ f.places) + base ^ f.unit
  above : 2 * (n * 10 ^ f.places) ≤ 2 * (f.digits * base ^ f.unit) + base ^ f.unit

end ShortForm

/-- A text that shows a number in short. A number of more than 53 binary digits may be taken for another one
that is off by at most one part in `2 ^ 53`. -/
def ShowsShort (base : Nat) (units : List String) (n : Nat) (text : String) : Prop :=
  ∃ (f : ShortForm) (m : Nat), 2 ^ 53 * (m - n) ≤ n ∧ 2 ^ 53 * (n - m) ≤ n ∧
    f.Shows base units.length m ∧ text = f.text units

theorem paddedDigits_mod {places digits : Nat} (hplaces : places = 1 ∨ places = 2) :
    paddedDigits places (digits % 10 ^ places) =
      String.ofList ((List.range places).reverse.map fun i => Nat.digitChar (digits / 10 ^ i % 10)) := by
  have hshort : ∀ p ∈ [1, 2], ∀ r < 10 ^ p, paddedDigits p r =
      String.ofList ((List.range p).reverse.map fun i => Nat.digitChar (r / 10 ^ i % 10)) := by
    decide +kernel
  rw [hshort places (by simpa using hplaces) _ (Nat.mod_lt _ (by positivity))]
  congr 1
  apply List.map_congr_left
  intro i hi
  have hdvd : 10 ^ i * 10 ∣ 10 ^ places := by
    rw [← pow_succ]
    exact Nat.pow_dvd_pow 10 (List.mem_range.mp (List.mem_reverse.mp hi))
  rw [← Nat.mod_mul_right_div_self, ← Nat.mod_mul_right_div_self, Nat.mod_mod_of_dvd _ hdvd]

theorem abs_roundDiv_sub_le {num den : Nat} (hden : 0 < den) :
    |(roundDiv num den : ℚ) - num / den| ≤ 1 / 2 := by
  have hpos : (0 : ℚ) < den := by exact_mod_cast hden
  have hsplit : (num : ℚ) / den = (num / den : Nat) + (num % den : Nat) / den := by
    rw [div_eq_iff hpos.ne', add_mul, div_mul_cancel₀ _ hpos.ne', mul_comm]
    exact_mod_cast (Nat.div_add_mod num den).symm
  have hzero : (0 : ℚ) ≤ (num % den : Nat) / den := by positivity
  have hone : ((num % den : Nat) : ℚ) / den ≤ 1 := by
    rw [div_le_one hpos]
    exact_mod_cast (Nat.mod_lt num hden).le
  have hdown : 2 * (num % den) ≤ den → |((num / den : Nat) : ℚ) - num / den| ≤ 1 / 2 := by
    intro hhalf
    have hbelow : (num % den : Nat) / (den : ℚ) ≤ 1 / 2 := by
      rw [div_le_div_iff₀ hpos two_pos, one_mul, mul_comm]
      exact_mod_cast hhalf
    rw [hsplit, abs_le]
    constructor <;> linarith
  have hup : den ≤ 2 * (num % den) → |((num / den + 1 : Nat) : ℚ) - num / den| ≤ 1 / 2 := by
    intro hhalf
    have habove : 1 / 2 ≤ (num % den : Nat) / (den : ℚ) := by
      rw [div_le_div_iff₀ two_pos hpos, one_mul, mul_comm]
      exact_mod_cast hhalf
    rw [hsplit, abs_le, Nat.cast_add, Nat.cast_one]
    constructor <;> linarith
  unfold roundDiv
  dsimp only
  split
  · exact hdown (by omega)
  split
  · exact hup (by omega)
  split
  · exact hdown (by omega)
  · exact hup (by omega)

/-- The digits that are printed are next to the value. -/
theorem abs_scaled_sub_le (m : Nat) (e : Int) (places : Nat) :
    |((⟨m, e⟩ : Binary).scaled places : ℚ) - m * 2 ^ e * 10 ^ places| ≤ 1 / 2 := by
  unfold Binary.scaled
  dsimp only
  split
  · next hwhole =>
    obtain ⟨k, rfl⟩ := Int.eq_ofNat_of_zero_le hwhole
    rw [Int.toNat_natCast, zpow_natCast]
    change |((m * 2 ^ k * 10 ^ places : Nat) : ℚ) - _| ≤ 1 / 2
    push_cast
    rw [sub_self, abs_zero]
    exact one_half_pos.le
  · next hfraction =>
    obtain ⟨k, rfl⟩ := Int.exists_eq_neg_ofNat (by omega : e ≤ 0)
    have hnear := @abs_roundDiv_sub_le (m * 10 ^ places) (2 ^ k) (Nat.two_pow_pos k)
    rw [neg_neg, Int.toNat_natCast, zpow_neg, zpow_natCast, mul_right_comm, ← div_eq_mul_inv]
    push_cast at hnear
    exact hnear

/-- The text of a double to so many places is a decimal next to its value. -/
theorem HasValue.fixedPlaces {x : Float} {v : ℚ} (h : HasValue x v) {places : Nat} (hplaces : places ≤ 2) :
    ∃ digits : Nat, Text.fixedPlaces places x = decimalText places digits ∧
      |(digits : ℚ) - v * 10 ^ places| ≤ 1 / 2 := by
  obtain ⟨m, e, hx, rfl⟩ := h
  refine ⟨(⟨m, e⟩ : Binary).scaled places, ?_, abs_scaled_sub_le m e places⟩
  unfold Text.fixedPlaces decimalText
  rw [hx.isNaN, hx.isInf, hx.isNegative, hx.ofFloat]
  generalize (⟨m, e⟩ : Binary).scaled places = digits
  simp only [Bool.false_eq_true, if_false, String.empty_append]
  split
  · rw [String.append_empty]
    rfl
  · have hlast := @paddedDigits_mod places digits (by omega)
    rw [← hlast, ← String.append_assoc]
    rfl

theorem hasValue_ten : HasValue 10.0 (10 : ℕ) :=
  ⟨10 * 2 ^ 49, -49, ⟨by decide, by decide, by decide, by decide, by decide +kernel⟩, by norm_num⟩

theorem hasValue_hundred : HasValue 100.0 (100 : ℕ) :=
  ⟨100 * 2 ^ 46, -46, ⟨by decide, by decide, by decide, by decide, by decide +kernel⟩, by norm_num⟩

theorem hasValue_thousand : HasValue 1000.0 (1000 : ℕ) :=
  ⟨1000 * 2 ^ 43, -43, ⟨by decide, by decide, by decide, by decide, by decide +kernel⟩, by norm_num⟩

theorem hasValue_kilobyte : HasValue 1024.0 (1024 : ℕ) :=
  ⟨1024 * 2 ^ 42, -42, ⟨by decide, by decide, by decide, by decide, by decide +kernel⟩, by norm_num⟩

/-- The double `x` is the quotient of `n` by `base ^ k` but for an error, and exactly if that is whole. -/
def IsQuotient (error : ℚ) (base n k : Nat) (x : Float) : Prop :=
  ∃ v, HasValue x v ∧ |v * base ^ k - n| ≤ error ∧ (base ^ k ∣ n → v * base ^ k = n)

namespace IsQuotient
variable {error : ℚ} {base n k : Nat} {x y : Float}

/-- The error is too small to matter where a quotient is compared with a natural number. -/
theorem lt_iff (h : IsQuotient error base n k x) (herror : error < 1) (hbase : 0 < base) {c : Nat}
    (hy : HasValue y c) : x < y ↔ n < c * base ^ k := by
  obtain ⟨v, hx, hnear, hwhole⟩ := h
  obtain ⟨hlow, hhigh⟩ := abs_le.mp hnear
  have hpos : (0 : ℚ) < base ^ k := by positivity
  rw [hx.lt_iff hy]
  constructor
  · intro hlt
    have hscaled := mul_lt_mul_of_pos_right hlt hpos
    by_contra hge
    -- only a whole quotient could be as close as that, and it has no error
    rcases (not_lt.mp hge).eq_or_lt with heq | hgt
    · rw [hwhole (Dvd.intro_left c heq), ← heq] at hscaled
      push_cast at hscaled
      exact lt_irrefl _ hscaled
    · have : (c * base ^ k : ℚ) + 1 ≤ n := by exact_mod_cast hgt
      linarith
  · intro hlt
    have : (n : ℚ) + 1 ≤ c * base ^ k := by exact_mod_cast hlt
    by_contra hge
    linarith [mul_le_mul_of_nonneg_right (not_lt.mp hge) hpos.le]

/-- Nor does it matter for which decimal is next to the quotient. -/
theorem fixedPlaces (h : IsQuotient error base n k x) (herror : 200 * error < 1) {places : Nat}
    (hplaces : places ≤ 2) : ∃ digits, Text.fixedPlaces places x = decimalText places digits ∧
      2 * (digits * base ^ k) ≤ 2 * (n * 10 ^ places) + base ^ k ∧
      2 * (n * 10 ^ places) ≤ 2 * (digits * base ^ k) + base ^ k := by
  obtain ⟨v, hx, hnear, -⟩ := h
  obtain ⟨digits, htext, hdigits⟩ := hx.fixedPlaces hplaces
  have hpow : (0 : ℚ) ≤ base ^ k := by positivity
  have hten : (0 : ℚ) ≤ 10 ^ places := by positivity
  have hscaled : |v * base ^ k * 10 ^ places - n * 10 ^ places| < 1 / 2 := by
    have hhundred : (10 : ℚ) ^ places ≤ 100 := by
      calc (10 : ℚ) ^ places ≤ 10 ^ 2 := pow_le_pow_right₀ (by norm_num) hplaces
        _ = 100 := by norm_num
    have hmost := mul_le_mul hnear hhundred hten ((abs_nonneg _).trans hnear)
    rw [← sub_mul, abs_mul, abs_of_nonneg hten]
    linarith
  have hprinted : |digits * base ^ k - v * base ^ k * 10 ^ places| ≤ base ^ k / 2 := by
    have hmost := mul_le_mul_of_nonneg_right hdigits hpow
    rw [mul_right_comm, ← sub_mul, abs_mul, abs_of_nonneg hpow]
    linarith
  obtain ⟨hlow, hhigh⟩ := abs_lt.mp hscaled
  obtain ⟨hbelow, habove⟩ := abs_le.mp hprinted
  -- both sides are natural numbers, so less than one more is no more
  have hless : (2 * (digits * base ^ k) : ℚ) < 2 * (n * 10 ^ places) + base ^ k + 1 := by
    linarith
  have hmore : (2 * (n * 10 ^ places) : ℚ) < 2 * (digits * base ^ k) + base ^ k + 1 := by
    linarith
  exact ⟨digits, htext, Nat.lt_succ_iff.mp (by exact_mod_cast hless),
    Nat.lt_succ_iff.mp (by exact_mod_cast hmore)⟩

/-- Three significant digits of a quotient below a thousand. -/
theorem threeDigits (h : IsQuotient error base n k x) (herror : 200 * error < 1) (hbase : 0 < base) :
    ∃ places digits, Text.threeDigits x = decimalText places digits ∧
      places = (if 100 * base ^ k ≤ n then 0 else if 10 * base ^ k ≤ n then 1 else 2) ∧
      2 * (digits * base ^ k) ≤ 2 * (n * 10 ^ places) + base ^ k ∧
      2 * (n * 10 ^ places) ≤ 2 * (digits * base ^ k) + base ^ k := by
  have hten : x < 10.0 ↔ n < 10 * base ^ k := h.lt_iff (by linarith) hbase hasValue_ten
  have hhundred : x < 100.0 ↔ n < 100 * base ^ k := h.lt_iff (by linarith) hbase hasValue_hundred
  unfold Text.threeDigits
  by_cases hsmall : n < 10 * base ^ k
  · obtain ⟨digits, htext, hnear⟩ := h.fixedPlaces herror (le_refl 2)
    rw [if_pos (hten.mpr hsmall)]
    exact ⟨2, digits, htext, by rw [if_neg (by omega), if_neg (by omega)], hnear⟩
  rw [if_neg (mt hten.mp hsmall)]
  by_cases hlarge : n < 100 * base ^ k
  · obtain ⟨digits, htext, hnear⟩ := h.fixedPlaces herror one_le_two
    rw [if_pos (hhundred.mpr hlarge)]
    exact ⟨1, digits, htext, by rw [if_neg (by omega), if_pos (by omega)], hnear⟩
  · obtain ⟨digits, htext, hnear⟩ := h.fixedPlaces herror (Nat.zero_le 2)
    rw [if_neg (mt hhundred.mp hlarge)]
    exact ⟨0, digits, htext, by rw [if_pos (by omega)], hnear⟩

/-- One more division adds little to the error. -/
theorem div (h : IsQuotient error base n k x) (herror : error ≤ 1) (hn : n < 2 ^ 32) (hbase : 1 < base)
    (hreached : base ^ (k + 1) ≤ n) (hy : HasValue y base) :
    IsQuotient (error + 1 / 2 ^ 20) base n (k + 1) (x / y) := by
  obtain ⟨v, hx, hnear, hwhole⟩ := h
  obtain ⟨hlow, hhigh⟩ := abs_le.mp hnear
  have htwo : (2 : ℚ) ≤ base := by exact_mod_cast hbase
  have hpow : (1 : ℚ) ≤ base ^ k := one_le_pow₀ (by linarith)
  have hpos : (0 : ℚ) < base ^ k := by linarith
  have hbase' : (base : ℚ) ≠ 0 := by positivity
  have hmost : (n : ℚ) + 1 ≤ 2 ^ 32 := by exact_mod_cast hn
  have hleast : (base : ℚ) ^ k * base ≤ n := by
    rw [← pow_succ]
    exact_mod_cast hreached
  have hv : 1 ≤ v := by
    have := mul_le_mul_of_nonneg_left htwo hpos.le
    by_contra hsmall
    linarith [mul_lt_mul_of_pos_right (not_le.mp hsmall) hpos]
  have hv' : v ≤ v * base ^ k := le_mul_of_one_le_right (by linarith) hpow
  have hbasePow : (base : ℚ) ≤ base ^ k * base := le_mul_of_one_le_left (by linarith) hpow
  obtain ⟨z, hz, hrounds⟩ := hx.div hy hv (by linarith) (by linarith) (by linarith)
  have hdivided : v / base * base ^ (k + 1) = v * base ^ k := by
    rw [pow_succ', ← mul_assoc, div_mul_cancel₀ _ hbase']
  refine ⟨z, hz, ?_, ?_⟩
  · have hpos' : (0 : ℚ) ≤ base ^ (k + 1) := by positivity
    have hrounded : |z * base ^ (k + 1) - v * base ^ k| ≤ 1 / 2 ^ 20 := by
      have hscaled := mul_le_mul_of_nonneg_right hrounds.abs_sub_le hpos'
      rw [hdivided] at hscaled
      rw [← hdivided, ← sub_mul, abs_mul, abs_of_nonneg hpos']
      linarith
    have := abs_sub_le (z * base ^ (k + 1)) (v * base ^ k) n
    linarith
  · rintro ⟨c, rfl⟩
    have hsame := hwhole (dvd_mul_of_dvd_left (pow_dvd_pow base (Nat.le_succ k)) c)
    have hquotient : v / base = c := by
      rw [div_eq_iff hbase']
      apply mul_right_cancel₀ hpos.ne'
      rw [hsame]
      push_cast
      ring
    have hshort : c < 2 ^ 53 := by
      have := Nat.le_mul_of_pos_left c (Nat.pow_pos (Nat.zero_lt_of_lt hbase) : 0 < base ^ (k + 1))
      omega
    rw [hrounds.eq_of_short hshort (f := 0) (by rw [hquotient, zpow_zero, mul_one]), hdivided, hsame]

end IsQuotient

/-- Dividing down ends at the largest unit that a number reaches. What each division keeps, the quotient at
the end has. -/
theorem scaleDown_ends {base : Float} {b n : Nat} {P : Nat → Float → Prop}
    (hstep : ∀ k x, P k x → b ^ (k + 1) ≤ n → P (k + 1) (x / base))
    (hlt : ∀ k x, P k x → (x < base ↔ n < b ^ (k + 1))) (larger : List String) (k : Nat) (x : Float)
    (unit : String) (hx : P k x) (hn : b ^ k ≤ n) :
    ∃ j, P (k + j) (scaleDown base x unit larger).1 ∧
      (unit :: larger)[j]? = some (scaleDown base x unit larger).2 ∧ b ^ (k + j) ≤ n ∧
      (j = larger.length ∨ n < b ^ (k + j + 1)) := by
  induction larger generalizing k x unit with
  | nil => exact ⟨0, hx, rfl, hn, Or.inl rfl⟩
  | cons next larger ih =>
    rw [scaleDown]
    by_cases hsmall : n < b ^ (k + 1)
    · rw [if_pos ((hlt k x hx).mpr hsmall)]
      exact ⟨0, hx, rfl, hn, Or.inr hsmall⟩
    · have hlarge := not_lt.mp hsmall
      rw [if_neg (mt (hlt k x hx).mp hsmall)]
      obtain ⟨j, hend, hunit, hreached, hlast⟩ := ih (k + 1) (x / base) next (hstep k x hx hlarge) hlarge
      have hsum : k + (j + 1) = k + 1 + j := by omega
      refine ⟨j + 1, ?_⟩
      rw [hsum]
      exact ⟨hend, hunit, hreached, hlast.imp (congrArg (· + 1)) id⟩

theorem showsShort_of_lt {base n : Nat} {unit next : String} {rest : List String} (h : n < base) :
    ShowsShort base (unit :: next :: rest) n (toString n ++ unit) := by
  refine ⟨⟨0, n, 0⟩, n, by omega, by omega, ?_, ?_⟩
  · exact {
      unit_lt := Nat.succ_pos _
      reached := Or.inl rfl
      largest := Or.inr (by rwa [zero_add, pow_one])
      places := rfl
      below := Nat.le_add_right _ _
      above := Nat.le_add_right _ _ }
  · change _ = toString (n / 10 ^ 0) ++ "" ++ unit
    rw [pow_zero, Nat.div_one, String.append_empty]

/-- No other text shows a number below the base. -/
theorem ShowsShort.eq_of_lt {base n : Nat} {unit text : String} {units : List String} (hn : n < base)
    (hbase : base ≤ 2 ^ 52) (h : ShowsShort base (unit :: units) n text) : text = toString n ++ unit := by
  obtain ⟨⟨places, digits, k⟩, m, hbelow, habove, hshows, rfl⟩ := h
  obtain ⟨-, hreached, -, hplaces, hdigits, hdigits'⟩ := hshows
  obtain rfl : m = n := by omega
  dsimp only at hreached hplaces hdigits hdigits'
  have hk : k = 0 := by
    by_contra hne
    have hle := hreached.resolve_left hne
    exact absurd ((Nat.le_self_pow hne base).trans hle) (by omega)
  subst hk
  rw [if_pos (Or.inl rfl)] at hplaces
  subst hplaces
  rw [pow_zero, pow_zero] at hdigits hdigits'
  obtain rfl : digits = m := by omega
  change toString (digits / 10 ^ 0) ++ "" ++ unit = _
  rw [pow_zero, Nat.div_one, String.append_empty]

/-- The short text of a quantity `n` that is divided as `m`, if every division keeps what makes a quotient. -/
theorem shortQuantity_shows {base : Float} {b m n : Nat} {P : Nat → Float → Prop} {unit next : String}
    {rest : List String} (hbase : HasValue base b) (hb : 1 < b) (hb' : b < 2 ^ 52)
    (hbelow : 2 ^ 53 * (m - n) ≤ n) (habove : 2 ^ 53 * (n - m) ≤ n) (hstart : P 0 n.toUInt64.toFloat)
    (hstep : ∀ k x, P k x → b ^ (k + 1) ≤ m → P (k + 1) (x / base))
    (hquotient : ∀ k x, P k x → ∃ error, 200 * error < 1 ∧ IsQuotient error b m k x) :
    ShowsShort b (unit :: next :: rest) n (shortQuantity base unit (next :: rest) n) := by
  have hlt : ∀ k x, P k x → (x < base ↔ m < b ^ (k + 1)) := by
    intro k x hx
    obtain ⟨error, herror, hx⟩ := hquotient k x hx
    rw [hx.lt_iff (by linarith) (by omega) hbase, pow_succ']
  unfold shortQuantity
  dsimp only
  by_cases hsmall : m < b ^ (0 + 1)
  · have hn : n < b := by
      rw [zero_add, pow_one] at hsmall
      omega
    rw [if_pos ((hlt 0 _ hstart).mpr hsmall)]
    exact showsShort_of_lt hn
  have hlarge := not_lt.mp hsmall
  rw [if_neg (mt (hlt 0 _ hstart).mp hsmall)]
  obtain ⟨j, hend, hunit, hreached, hlast⟩ :=
    scaleDown_ends hstep hlt rest 1 (n.toUInt64.toFloat / base) next (hstep 0 _ hstart hlarge) hlarge
  obtain ⟨error, herror, hend⟩ := hquotient _ _ hend
  obtain ⟨places, digits, htext, hplaces, hdigits, hdigits'⟩ := hend.threeDigits herror (by omega)
  obtain ⟨hj, -⟩ := List.getElem?_eq_some_iff.mp hunit
  refine ⟨⟨places, digits, 1 + j⟩, m, hbelow, habove, ?_, ?_⟩
  · have hne : ¬1 + j = 0 := by omega
    exact {
      unit_lt := by
        rw [Nat.add_comm]
        exact Nat.succ_lt_succ hj
      reached := Or.inr hreached
      largest := hlast.imp (fun hj => by rw [hj, Nat.add_comm 1]; rfl) id
      places := by
        rw [hplaces]
        simp only [hne, false_or]
      below := hdigits
      above := hdigits' }
  · have hsuffix : (unit :: next :: rest).getD (1 + j) "" =
        (scaleDown base (n.toUInt64.toFloat / base) next rest).2 := by
      rw [Nat.add_comm, List.getD_cons_succ, List.getD_eq_getElem?_getD, hunit, Option.getD_some]
    rw [ShortForm.text, hsuffix, htext]

/-- A count of 32 bits is divided down by thousands with little error. -/
theorem showsShort_shortCount {n : Nat} (h : n ≤ wordMax) :
    ShowsShort 1000 ["", "K", "M", "G", "T"] n (shortCount n) := by
  have hmax : n < 2 ^ 32 := Nat.lt_succ_of_le h
  rcases n.eq_zero_or_pos with rfl | hpos
  · exact showsShort_of_lt (by decide)
  obtain ⟨v, hv, hrounds⟩ := hasValue_toFloat hpos (by omega)
  rw [hrounds.eq_of_short (k := n) (f := 0) (by omega) (by rw [zpow_zero, mul_one])] at hv
  have hfew : ∀ k : ℕ, 1000 ^ k ≤ n → (k : ℚ) < 4 := by
    intro k hk
    have hk' : k < 4 := by
      by_contra hmany
      have := Nat.pow_le_pow_right (by decide : 0 < 1000) (not_lt.mp hmany)
      omega
    exact_mod_cast hk'
  apply shortQuantity_shows (m := n) (P := fun k x => 1000 ^ k ≤ n ∧ IsQuotient (k / 2 ^ 20) 1000 n k x)
    hasValue_thousand (by decide) (by decide) (by omega) (by omega)
  · exact ⟨hpos, n, hv, by simp, by simp⟩
  · rintro k x ⟨hk, hx⟩ hreached
    have hnext := hx.div (by linarith [hfew k hk]) hmax (by decide) hreached hasValue_thousand
    refine ⟨hreached, ?_⟩
    rwa [Nat.cast_succ, add_div]
  · rintro k x ⟨hk, hx⟩
    exact ⟨k / 2 ^ 20, by linarith [hfew k hk], hx⟩

theorem HasValue.div_kilobyte {x : Float} {v : ℚ} (h : HasValue x v) (hv : 1 ≤ v) (hv' : v < 2 ^ 100) :
    HasValue (x / 1024.0) (v / 1024) := by
  obtain ⟨z, hz, hrounds⟩ := h.div hasValue_kilobyte hv hv' (by norm_num) (by norm_num)
  obtain ⟨m, e, hx, rfl⟩ := h
  -- a power of two changes nothing but the exponent
  have hexponent : (m : ℚ) * 2 ^ e / (1024 : ℕ) = m * 2 ^ (e - 10) := by
    rw [zpow_sub₀ two_ne_zero]
    norm_num
    ring
  rw [hrounds.eq_of_short hx.high hexponent] at hz
  exact hz

/-- A size of 64 bits is rounded to 53 bits and then divided down without error. -/
theorem showsShort_shortSize {n : Nat} (h : n ≤ longMax) :
    ShowsShort 1024 ["b", "KB", "MB", "GB", "TB"] n (shortSize n) := by
  have hmax : n < 2 ^ 64 := Nat.lt_succ_of_le h
  rcases n.eq_zero_or_pos with rfl | hpos
  · exact showsShort_of_lt (by decide)
  obtain ⟨v, hv, hrounds⟩ := hasValue_toFloat hpos hmax
  obtain ⟨m, rfl⟩ : ∃ m : ℕ, v = m := by
    rcases Nat.lt_or_ge n (2 ^ 53) with hshort | hlong
    · exact ⟨n, hrounds.eq_of_short (k := n) (f := 0) hshort (by rw [zpow_zero, mul_one])⟩
    · exact hrounds.exists_natCast (by exact_mod_cast hlong)
  have hnear := hrounds.abs_sub_le
  have hbelow : 2 ^ 53 * m ≤ 2 ^ 53 * n + n := by
    have : (2 ^ 53 * m : ℚ) ≤ 2 ^ 53 * n + n := by linarith [le_abs_self ((m : ℚ) - n)]
    exact_mod_cast this
  have habove : 2 ^ 53 * n ≤ 2 ^ 53 * m + n := by
    have : (2 ^ 53 * n : ℚ) ≤ 2 ^ 53 * m + n := by linarith [neg_abs_le ((m : ℚ) - n)]
    exact_mod_cast this
  have hm : (m : ℚ) < 2 ^ 65 := by
    have : m < 2 ^ 65 := by omega
    exact_mod_cast this
  apply shortQuantity_shows (m := m) (P := fun k x => ∃ w, HasValue x w ∧ w * 1024 ^ k = m)
    hasValue_kilobyte (by decide) (by decide) (by omega) (by omega)
  · exact ⟨m, hv, by rw [pow_zero, mul_one]⟩
  · rintro k x ⟨w, hx, hw⟩ hreached
    have hpow : (1 : ℚ) ≤ 1024 ^ k := one_le_pow₀ (by norm_num)
    have hleast : (1024 : ℚ) ^ k * 1024 ≤ m := by
      rw [← pow_succ]
      exact_mod_cast hreached
    have hone : 1 ≤ w := by
      by_contra hsmall
      linarith [mul_lt_mul_of_pos_right (not_le.mp hsmall) (zero_lt_one.trans_le hpow)]
    have hmost := le_mul_of_one_le_right (zero_le_one.trans hone) hpow
    refine ⟨w / 1024, hx.div_kilobyte hone (by linarith), ?_⟩
    rw [pow_succ', ← mul_assoc, div_mul_cancel₀ _ (by norm_num), hw]
  · rintro k x ⟨w, hx, hw⟩
    refine ⟨0, by norm_num, w, hx, ?_, fun _ => hw⟩
    push_cast
    rw [hw, sub_self, abs_zero]

example : shortSize 2000 = "1.95KB" := by
  decide +kernel

/-- A column is filled up with blanks from the left. -/
theorem padLeft_eq (width : Nat) (text : String) :
    padLeft width text = String.ofList (text.toList.leftpad width ' ') := by
  unfold padLeft List.leftpad
  rw [String.ofList_append, String.ofList_toList, String.length_toList]

end HeapRetention.Text
