import RownRg.Lib.Double

/-! Rounding to doubles keeps the order of the numbers, and the numbers that are doubles. -/

namespace PyText

variable {x y : ℚ} {m : Nat} {n e : Int}

theorem roundEven_mono (h : x ≤ y) : roundEven x ≤ roundEven y := by
  rcases Nat.lt_or_eq_of_le (Nat.floor_mono h) with hlt | heq
  · have hx := roundEven_cases x
    have hy := roundEven_cases y
    omega
  · have hgap : x - ⌊y⌋₊ ≤ y - ⌊y⌋₊ := sub_le_sub_right h _
    unfold roundEven
    simp only [heq]
    split
    · have hy := roundEven_cases y
      unfold roundEven at hy
      simp only at hy
      omega
    · rename_i hx
      rw [if_neg (fun hy => hx (lt_of_le_of_lt hgap hy))]
      split
      · rename_i hx'
        rw [if_pos (lt_of_lt_of_le hx' hgap)]
      · split <;> omega

namespace Double

/-- `-x` -/
def neg : Double → Double
  | nan => nan
  | inf negative => inf !negative
  | finite q => finite (-q)

/-- The power of two in whose multiples a number is written. -/
def exponentFor (q : ℚ) : Int := Max.max (Int.log 2 |q| - 52) (-1074)

/-- What a number is rounded to, without its sign. -/
def magnitude (q : ℚ) : ℚ := roundEven (|q| / 2 ^ exponentFor q) * (2 : ℚ) ^ exponentFor q

theorem two_zpow_pos (e : Int) : (0 : ℚ) < 2 ^ e := zpow_pos (by norm_num) e

theorem magnitude_nonneg (q : ℚ) : 0 ≤ magnitude q :=
  mul_nonneg (Nat.cast_nonneg _) (two_zpow_pos _).le

theorem magnitude_zero : magnitude 0 = 0 := by
  have hhalf : roundEven 0 = 0 := by simp [roundEven]
  simp [magnitude, hhalf]

theorem round_of_magnitude (hx : 0 ≤ x) (h : magnitude x < 2 ^ 1024) :
    round x = finite (magnitude x) := by
  have hlt : ¬ x < 0 := not_lt.mpr hx
  simp only [round, hlt, if_false]
  rw [if_neg]
  · rfl
  · exact not_le.mpr h

theorem round_eq_inf (hx : 0 ≤ x) (h : 2 ^ 1024 ≤ magnitude x) : round x = inf false := by
  have hlt : ¬ x < 0 := not_lt.mpr hx
  simp only [round, hlt, if_false, decide_false]
  exact if_pos h

theorem exponentFor_mono (hx : 0 < x) (h : x ≤ y) : exponentFor x ≤ exponentFor y := by
  unfold exponentFor
  rw [abs_of_pos hx, abs_of_pos (lt_of_lt_of_le hx h)]
  have := Int.log_mono_right (b := 2) hx h
  omega

/-- A power of two that the spacing divides is a bound of what rounds to it. -/
theorem div_two_zpow (h : e ≤ n) : (2 : ℚ) ^ n / 2 ^ e = ((2 ^ (n - e).toNat : Nat) : ℚ) := by
  rw [← zpow_sub₀ (by norm_num), Nat.cast_pow, ← zpow_natCast, Int.toNat_of_nonneg (by omega)]
  norm_num

theorem two_zpow_split (h : e ≤ n) : ((2 ^ (n - e).toNat : Nat) : ℚ) * 2 ^ e = 2 ^ n := by
  rw [← div_two_zpow h, div_mul_cancel₀ _ (two_zpow_pos e).ne']

theorem magnitude_le_two_zpow (hx : 0 < x) (h : x ≤ 2 ^ n) (hn : exponentFor x ≤ n) :
    magnitude x ≤ 2 ^ n := by
  have hround : roundEven (|x| / 2 ^ exponentFor x) ≤ 2 ^ (n - exponentFor x).toNat := by
    rw [← roundEven_natCast (2 ^ (n - exponentFor x).toNat), ← div_two_zpow hn, abs_of_pos hx]
    exact roundEven_mono (div_le_div_of_nonneg_right h (two_zpow_pos _).le)
  calc magnitude x
      ≤ ((2 ^ (n - exponentFor x).toNat : Nat) : ℚ) * 2 ^ exponentFor x :=
        mul_le_mul_of_nonneg_right (by exact_mod_cast hround) (two_zpow_pos _).le
    _ = 2 ^ n := two_zpow_split hn

theorem two_zpow_le_magnitude (h : 2 ^ n ≤ x) (hn : exponentFor x ≤ n) : 2 ^ n ≤ magnitude x := by
  have hx : 0 < x := lt_of_lt_of_le (two_zpow_pos n) h
  have hround : 2 ^ (n - exponentFor x).toNat ≤ roundEven (|x| / 2 ^ exponentFor x) := by
    rw [← roundEven_natCast (2 ^ (n - exponentFor x).toNat), ← div_two_zpow hn, abs_of_pos hx]
    exact roundEven_mono (div_le_div_of_nonneg_right h (two_zpow_pos _).le)
  calc (2 : ℚ) ^ n
      = ((2 ^ (n - exponentFor x).toNat : Nat) : ℚ) * 2 ^ exponentFor x := (two_zpow_split hn).symm
    _ ≤ magnitude x := mul_le_mul_of_nonneg_right (by exact_mod_cast hround) (two_zpow_pos _).le

/-- Rounding keeps the order. Between two spacings a power of two stands, which both keep to. -/
theorem magnitude_mono (hx : 0 ≤ x) (h : x ≤ y) : magnitude x ≤ magnitude y := by
  rcases hx.eq_or_lt with rfl | hx
  · rw [magnitude_zero]
    exact magnitude_nonneg y
  · have hy : 0 < y := lt_of_lt_of_le hx h
    rcases (exponentFor_mono hx h).lt_or_eq with hlt | heq
    · have hlow : (2 : ℚ) ^ Int.log 2 y ≤ y := by
        exact_mod_cast Int.zpow_log_le_self (b := 2) (by norm_num) hy
      have hxlog : exponentFor x ≤ Int.log 2 y ∧ exponentFor y ≤ Int.log 2 y
          ∧ Int.log 2 x + 1 ≤ Int.log 2 y := by
        simp only [exponentFor, abs_of_pos hx, abs_of_pos hy] at hlt ⊢
        omega
      have hhigh : x ≤ (2 : ℚ) ^ Int.log 2 y := by
        have hlog : x < (2 : ℚ) ^ (Int.log 2 x + 1) := by
          exact_mod_cast Int.lt_zpow_succ_log_self (b := 2) (by norm_num) x
        exact hlog.le.trans (zpow_le_zpow_right₀ (by norm_num) hxlog.2.2)
      exact (magnitude_le_two_zpow hx hhigh hxlog.1).trans (two_zpow_le_magnitude hlow hxlog.2.1)
    · unfold magnitude
      rw [abs_of_pos hx, abs_of_pos hy, heq]
      refine mul_le_mul_of_nonneg_right ?_ (two_zpow_pos _).le
      exact_mod_cast roundEven_mono (div_le_div_of_nonneg_right h (two_zpow_pos _).le)

/-- A multiple of a spacing that is no smaller than its own is kept. -/
theorem magnitude_of_multiple (h : exponentFor (m * 2 ^ e) ≤ e) :
    magnitude (m * 2 ^ e) = m * 2 ^ e := by
  have hnonneg : (0 : ℚ) ≤ m * 2 ^ e := mul_nonneg (Nat.cast_nonneg _) (two_zpow_pos e).le
  have hwhole : (m * 2 ^ e : ℚ) / 2 ^ exponentFor (m * 2 ^ e)
      = ((m * 2 ^ (e - exponentFor (m * 2 ^ e)).toNat : Nat) : ℚ) := by
    rw [mul_div_assoc, div_two_zpow h, Nat.cast_mul]
  unfold magnitude
  rw [abs_of_nonneg hnonneg, hwhole, roundEven_natCast, Nat.cast_mul, mul_assoc, two_zpow_split h]

/-- Every number of at most 53 binary digits is a double. -/
theorem magnitude_of_digits (hm : m < 2 ^ 53) (he : -1074 ≤ e) :
    magnitude (m * 2 ^ e) = m * 2 ^ e := by
  rcases Nat.eq_zero_or_pos m with rfl | hpos
  · rw [Nat.cast_zero, zero_mul, magnitude_zero]
  · refine magnitude_of_multiple ?_
    have hvalue : (0 : ℚ) < m * 2 ^ e := mul_pos (by exact_mod_cast hpos) (two_zpow_pos e)
    have hlt : (m * 2 ^ e : ℚ) < 2 ^ (e + 53) := by
      rw [zpow_add₀ (by norm_num), mul_comm]
      refine mul_lt_mul_of_pos_left ?_ (two_zpow_pos e)
      exact_mod_cast hm
    have hlog : Int.log 2 (m * 2 ^ e : ℚ) < e + 53 :=
      (Int.lt_zpow_iff_log_lt (by norm_num) hvalue).mp (by exact_mod_cast hlt)
    unfold exponentFor
    rw [abs_of_pos hvalue]
    omega

theorem round_of_digits (hm : m < 2 ^ 53) (he : -1074 ≤ e) (hn : e ≤ 971) :
    round (m * 2 ^ e) = finite (m * 2 ^ e) := by
  have hdouble := magnitude_of_digits hm he
  have hnonneg : 0 ≤ (m : ℚ) * 2 ^ e := mul_nonneg m.cast_nonneg (two_zpow_pos e).le
  have hsmall : (m : ℚ) * 2 ^ e < 2 ^ 1024 := by
    calc (m : ℚ) * 2 ^ e < 2 ^ 53 * 2 ^ e := by
          refine mul_lt_mul_of_pos_right ?_ (two_zpow_pos e)
          exact_mod_cast hm
      _ = 2 ^ (53 + e) := (zpow_add₀ two_ne_zero 53 e).symm
      _ ≤ 2 ^ (1024 : ℤ) := zpow_le_zpow_right₀ one_le_two (by omega)
      _ = 2 ^ 1024 := zpow_natCast 2 1024
  rw [round_of_magnitude hnonneg (hdouble.symm ▸ hsmall), hdouble]

/-- What was rounded once is a double. -/
theorem magnitude_idem (hx : 0 ≤ x) : magnitude (magnitude x) = magnitude x := by
  rcases hx.eq_or_lt with rfl | hx
  · rw [magnitude_zero, magnitude_zero]
  · have he : -1074 ≤ exponentFor x := le_max_right _ _
    have hlog : Int.log 2 x + 1 ≤ exponentFor x + 53 := by
      have : Int.log 2 |x| - 52 ≤ exponentFor x := le_max_left _ _
      rw [abs_of_pos hx] at this
      omega
    have hbound : roundEven (|x| / 2 ^ exponentFor x) ≤ 2 ^ 53 := by
      rw [← roundEven_natCast (2 ^ 53)]
      refine roundEven_mono ?_
      rw [div_le_iff₀ (two_zpow_pos _), abs_of_pos hx]
      have hlt : x < (2 : ℚ) ^ (Int.log 2 x + 1) := by
        exact_mod_cast Int.lt_zpow_succ_log_self (b := 2) (by norm_num) x
      calc x ≤ (2 : ℚ) ^ (exponentFor x + 53) :=
            hlt.le.trans (zpow_le_zpow_right₀ (by norm_num) hlog)
        _ = ((2 ^ 53 : Nat) : ℚ) * 2 ^ exponentFor x := by
            rw [zpow_add₀ (by norm_num), mul_comm]
            norm_num
    rcases hbound.lt_or_eq with hlt | heq
    · exact magnitude_of_digits hlt he
    · have htop : magnitude x = ((2 ^ 52 : Nat) : ℚ) * 2 ^ (exponentFor x + 1) := by
        unfold magnitude
        rw [heq, zpow_add₀ (by norm_num)]
        norm_num
        ring
      rw [htop]
      exact magnitude_of_digits (by norm_num) (by omega)

/-- What stands at or below a double rounds to no more. -/
theorem magnitude_le (hx : 0 ≤ x) (h : x ≤ y) (hy : magnitude y = y) : magnitude x ≤ y :=
  (magnitude_mono hx h).trans_eq hy

theorem le_magnitude (hx : 0 ≤ x) (h : x ≤ y) (hdouble : magnitude x = x) : x ≤ magnitude y :=
  hdouble.symm.trans_le (magnitude_mono hx h)

end Double

end PyText
