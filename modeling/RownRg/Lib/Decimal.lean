import Mathlib.Data.Int.Log
import Mathlib.Data.Rat.Floor
import Mathlib.Algebra.Order.Field.Basic
import Mathlib.Tactic.FieldSimp
import Mathlib.Tactic.Ring
import Mathlib.Tactic.Linarith
import Mathlib.Tactic.Positivity
import Mathlib.Tactic.NormNum
import RownRg.Lib.Text

/-! Decimal numbers as text: reading them, and the general format with six significant digits. -/

namespace PyText

variable {t u w : Text} {m p k n : Nat} {v x : ℚ} {c : Char}

/-- `float` of a text of digits with at most one point, exactly. -/
def floatOf (t : Text) : ℚ :=
  let frac := (t.dropWhile isDigit).drop 1
  natOf (t.takeWhile isDigit ++ frac) / 10 ^ frac.length

/-- `float` of the same with a minus sign or without. -/
def signedFloatOf : Text → ℚ
  | '-' :: t => -floatOf t
  | t => floatOf t

/-- The last `p` digits of a number. -/
def lastDigits : Nat → Nat → Text
  | 0, _ => []
  | p + 1, n => lastDigits p (n / 10) ++ [Nat.digitChar (n % 10)]

def rstripZeros (t : Text) : Text := (t.reverse.dropWhile (· == '0')).reverse

/-- `m / 10 ^ p` without the zeros at the end of the fraction. -/
def decimalText (m p : Nat) : Text :=
  let frac := rstripZeros (lastDigits p m)
  ofNat (m / 10 ^ p) ++ if frac.isEmpty then [] else '.' :: frac

/-- Rounds to the nearest whole number, to the even one from the middle. -/
def roundEven (x : ℚ) : Nat :=
  let q := ⌊x⌋₊
  if x - q < 1 / 2 then q else if 1 / 2 < x - q then q + 1 else q + q % 2

/-- Six digits and the exponent of the first one. -/
def sixDigits (v : ℚ) : Nat × Int :=
  let e := Int.log 10 v
  let m := roundEven (v * 10 ^ (5 - e))
  if m = 10 ^ 6 then (10 ^ 5, e + 1) else (m, e)

/-- `f'{e:+03d}'` -/
def exponentText (e : Int) : Text :=
  (if e < 0 then '-' else '+') ::
    (if e.natAbs < 10 then '0' :: ofNat e.natAbs else ofNat e.natAbs)

/-- `f'{v:g}'` -/
def formatGeneral (v : ℚ) : Text :=
  if v = 0 then ['0']
  else
    let (m, e) := sixDigits |v|
    (if v < 0 then ['-'] else []) ++
      if -4 ≤ e ∧ e < 6 then decimalText m (5 - e).toNat
      else decimalText m 5 ++ 'e' :: exponentText e

/-- What the general format shows in full: zero, and numbers of at most six significant digits
that are neither too small nor too large for it. -/
def ShownInFull (v : ℚ) : Prop :=
  v = 0 ∨ (1 / 10 ^ 4 ≤ |v| ∧ |v| < 10 ^ 6 ∧ ∃ (m : ℕ) (z : ℤ), m < 10 ^ 6 ∧ |v| = m * 10 ^ z)

/-- A whole number below a million is shown in full. -/
theorem shownInFull_natCast (h : n < 10 ^ 6) : ShownInFull (n : ℚ) := by
  by_cases hn : n = 0
  · exact .inl (by simp [hn])
  · have hone : (1 : ℚ) ≤ n := by exact_mod_cast Nat.one_le_iff_ne_zero.mpr hn
    have habs : |(n : ℚ)| = n := abs_of_nonneg (by positivity)
    refine .inr ⟨?_, ?_, n, 0, h, by simp⟩
    · rw [habs]
      exact le_trans (by norm_num) hone
    · rw [habs]
      exact_mod_cast h

theorem not_shownInFull_large (h : 10 ^ 6 ≤ |v|) : ¬ ShownInFull v := by
  rintro (rfl | ⟨-, hsmall, -⟩)
  · norm_num at h
  · exact absurd h (not_le.mpr hsmall)

/-! Digits. -/

theorem natOf_append (hu : ∀ c ∈ u, c.isDigit) (hw : ∀ c ∈ w, c.isDigit) :
    natOf (u ++ w) = natOf u * 10 ^ w.length + natOf w := by
  have hall : ∀ c ∈ u ++ w, c.isDigit := by
    intro c hc
    rcases List.mem_append.mp hc with hc | hc
    · exact hu c hc
    · exact hw c hc
  unfold natOf
  rw [natOf_foldl hall, natOf_foldl hu, natOf_foldl hw, Nat.ofDigitChars_append,
    Nat.ofDigitChars_eq_ofDigitChars_zero]
  ring

theorem lastDigits_succ (p n : Nat) :
    lastDigits (p + 1) n = lastDigits p (n / 10) ++ [Nat.digitChar (n % 10)] := rfl

theorem isDigit_lastDigits (p n : Nat) : ∀ c ∈ lastDigits p n, c.isDigit := by
  induction p generalizing n with
  | zero => exact fun c hc => nomatch hc
  | succ p ih =>
    intro c hc
    rcases List.mem_append.mp hc with hc | hc
    · exact ih _ c hc
    · obtain rfl := List.mem_singleton.mp hc
      simp [Nat.isDigit_digitChar, Nat.mod_lt]

theorem length_lastDigits (p n : Nat) : (lastDigits p n).length = p := by
  induction p generalizing n with
  | zero => rfl
  | succ p ih => simp [lastDigits_succ, ih]

theorem natOf_digitChar (h : n < 10) : natOf [Nat.digitChar n] = n := by
  have hofNat : ofNat n = [Nat.digitChar n] := Nat.toDigits_of_lt_base h
  rw [← hofNat, natOf_ofNat]

theorem natOf_lastDigits (p n : Nat) : natOf (lastDigits p n) = n % 10 ^ p := by
  induction p generalizing n with
  | zero =>
    rw [pow_zero, Nat.mod_one]
    rfl
  | succ p ih =>
    have hlt : n % 10 < 10 := Nat.mod_lt _ (by omega)
    have hdigit : ∀ c ∈ [Nat.digitChar (n % 10)], c.isDigit := by
      simp [Nat.isDigit_digitChar, hlt]
    rw [lastDigits_succ, natOf_append (isDigit_lastDigits p _) hdigit, ih, natOf_digitChar hlt,
      pow_succ', Nat.mod_mul]
    simp
    ring

theorem exists_zeros (t : Text) : ∃ k, t = rstripZeros t ++ List.replicate k '0' := by
  have hzeros : ∀ c ∈ t.reverse.takeWhile (· == '0'), c = '0' := fun c hc => by
    simpa using List.mem_takeWhile_imp hc
  refine ⟨(t.reverse.takeWhile (· == '0')).length, ?_⟩
  rw [← List.eq_replicate_of_mem hzeros]
  have hcut := List.takeWhile_append_dropWhile (p := (· == '0')) (l := t.reverse)
  have hrev := congrArg List.reverse hcut
  rw [List.reverse_append, List.reverse_reverse] at hrev
  rw [List.eq_replicate_of_mem hzeros, List.reverse_replicate] at hrev
  rw [List.eq_replicate_of_mem hzeros]
  exact hrev.symm

theorem natOf_zeros (hu : ∀ c ∈ u, c.isDigit) (k : Nat) :
    natOf (u ++ List.replicate k '0') = natOf u * 10 ^ k := by
  have hzeros : ∀ c ∈ List.replicate k '0', c.isDigit := fun c hc => by
    rw [List.eq_of_mem_replicate hc]
    decide
  have hvalue : natOf (List.replicate k '0') = 0 := by
    unfold natOf
    rw [natOf_foldl hzeros, Nat.ofDigitChars_replicate_zero, Nat.mul_zero]
  rw [natOf_append hu hzeros, hvalue, List.length_replicate, Nat.add_zero]

/-! Reading what was written. -/

/-- A text of digits, with a point and more digits or without. -/
inductive Digits : Text → Prop
  | whole {u : Text} (hu : u ≠ []) (h : ∀ c ∈ u, isDigit c) : Digits u
  | point {u w : Text} (hu : u ≠ []) (h : ∀ c ∈ u, isDigit c) (hw : w ≠ []) (h' : ∀ c ∈ w, isDigit c) :
      Digits (u ++ '.' :: w)

theorem isDigit_of_mem_rstripZeros (h : c ∈ rstripZeros (lastDigits p m)) : c.isDigit := by
  obtain ⟨k, hk⟩ := exists_zeros (lastDigits p m)
  exact isDigit_lastDigits p m c (by rw [hk]; exact List.mem_append_left _ h)

theorem digits_decimalText (m p : Nat) : Digits (decimalText m p) := by
  unfold decimalText
  simp only
  split
  · rw [List.append_nil]
    exact .whole ofNat_ne_nil fun c hc => isDigit_of_mem_ofNat hc
  · rename_i hfrac
    exact .point ofNat_ne_nil (fun c hc => isDigit_of_mem_ofNat hc)
      (by simpa using hfrac) fun c hc => isDigit_of_ascii (isDigit_of_mem_rstripZeros hc)

theorem takeWhile_ofNat (n : Nat) (w : Text) (hw : ∀ c ∈ w.head?, isDigit c = false) :
    (ofNat n ++ w).takeWhile isDigit = ofNat n ∧ (ofNat n ++ w).dropWhile isDigit = w := by
  have hall : ∀ c ∈ ofNat n, isDigit c := fun c hc => isDigit_of_mem_ofNat hc
  rw [List.takeWhile_append_of_pos hall, List.dropWhile_append_of_pos hall]
  cases w with
  | nil => simp
  | cons c w =>
    have hc : isDigit c = false := hw c rfl
    simp [hc]

theorem floatOf_decimalText (m p : Nat) : floatOf (decimalText m p) = m / 10 ^ p := by
  obtain ⟨k, hk⟩ := exists_zeros (lastDigits p m)
  have hfrac : ∀ c ∈ rstripZeros (lastDigits p m), c.isDigit := fun c hc =>
    isDigit_of_mem_rstripZeros hc
  have hlen : (rstripZeros (lastDigits p m)).length + k = p := by
    have h := congrArg List.length hk
    rw [length_lastDigits] at h
    simpa using h.symm
  have hvalue : natOf (rstripZeros (lastDigits p m)) * 10 ^ k = m % 10 ^ p := by
    rw [← natOf_zeros hfrac, ← hk, natOf_lastDigits]
  have hint : ∀ c ∈ ofNat (m / 10 ^ p), c.isDigit := fun c hc =>
    Nat.isDigit_of_mem_toDigits (by omega) (by omega) hc
  have hread : floatOf (decimalText m p) =
      natOf (ofNat (m / 10 ^ p) ++ rstripZeros (lastDigits p m)) /
        10 ^ (rstripZeros (lastDigits p m)).length := by
    unfold floatOf decimalText
    simp only
    split
    · rename_i hempty
      obtain ⟨htake, hdrop⟩ := takeWhile_ofNat (m / 10 ^ p) [] (by simp)
      rw [htake, hdrop, List.isEmpty_iff.mp hempty]
      simp
    · obtain ⟨htake, hdrop⟩ := takeWhile_ofNat (m / 10 ^ p)
        ('.' :: rstripZeros (lastDigits p m)) (by simp; decide)
      rw [htake, hdrop]
      simp
  rw [hread, natOf_append hint hfrac, natOf_ofNat, div_eq_div_iff (by positivity) (by positivity)]
  have hm := Nat.div_add_mod m (10 ^ p)
  have hwhole : (m / 10 ^ p * 10 ^ (rstripZeros (lastDigits p m)).length +
      natOf (rstripZeros (lastDigits p m))) * 10 ^ p =
      m * 10 ^ (rstripZeros (lastDigits p m)).length := by
    have hpow : 10 ^ p = 10 ^ (rstripZeros (lastDigits p m)).length * 10 ^ k := by
      rw [← pow_add, hlen]
    calc _ = m / 10 ^ p * 10 ^ p * 10 ^ (rstripZeros (lastDigits p m)).length +
          natOf (rstripZeros (lastDigits p m)) * 10 ^ p := by ring
      _ = m / 10 ^ p * 10 ^ p * 10 ^ (rstripZeros (lastDigits p m)).length +
          natOf (rstripZeros (lastDigits p m)) * 10 ^ k *
            10 ^ (rstripZeros (lastDigits p m)).length := by
        nth_rewrite 3 [hpow]
        ring
      _ = (10 ^ p * (m / 10 ^ p) + m % 10 ^ p) *
            10 ^ (rstripZeros (lastDigits p m)).length := by
        rw [hvalue]
        ring
      _ = _ := by rw [hm]
  exact_mod_cast hwhole

/-! The characters of a number. -/

/-- Where a number is written in the general format. -/
def isNumberChar (c : Char) : Bool := isDigit c || "+-.e".toList.contains c

theorem mem_ofNat_number (h : c ∈ ofNat n) : isNumberChar c := by
  simp [isNumberChar, isDigit_of_mem_ofNat h]

theorem mem_decimalText (h : c ∈ decimalText m p) : isNumberChar c := by
  unfold decimalText at h
  simp only at h
  rcases List.mem_append.mp h with h | h
  · exact mem_ofNat_number h
  · split at h
    · cases h
    · rcases List.mem_cons.mp h with rfl | h
      · decide
      · simp [isNumberChar, isDigit_of_ascii (isDigit_of_mem_rstripZeros h)]

theorem mem_exponentText {e : Int} (h : c ∈ exponentText e) : isNumberChar c := by
  rcases List.mem_cons.mp h with rfl | h
  · split <;> decide
  · split at h
    · rcases List.mem_cons.mp h with rfl | h
      · decide
      · exact mem_ofNat_number h
    · exact mem_ofNat_number h

theorem mem_formatGeneral (h : c ∈ formatGeneral v) : isNumberChar c := by
  unfold formatGeneral at h
  split at h
  · obtain rfl := List.mem_singleton.mp h
    decide
  · rcases List.mem_append.mp h with h | h
    · split at h
      · obtain rfl := List.mem_singleton.mp h
        decide
      · cases h
    · split at h
      · exact mem_decimalText h
      · rcases List.mem_append.mp h with h | h
        · exact mem_decimalText h
        · rcases List.mem_cons.mp h with rfl | h
          · decide
          · exact mem_exponentText h

theorem not_isSpace_of_isNumberChar (h : isNumberChar c) : isSpace c = false := by
  by_contra hspace
  rw [Bool.not_eq_false] at hspace
  rcases Bool.or_eq_true_iff.mp h with h | h
  · simp [not_isDigit_of_isSpace hspace] at h
  · have hc : c = '+' ∨ c = '-' ∨ c = '.' ∨ c = 'e' := by simpa using h
    rcases hc with rfl | rfl | rfl | rfl <;> exact absurd hspace (by decide)

theorem formatGeneral_ne_nil (v : ℚ) : formatGeneral v ≠ [] := by
  unfold formatGeneral
  split
  · simp
  · simp only
    split <;> split <;> simp [decimalText, ofNat_ne_nil]

theorem solid_formatGeneral (v : ℚ) : Solid (formatGeneral v) :=
  ⟨formatGeneral_ne_nil v,
    fun _ hc => not_isSpace_of_isNumberChar (mem_formatGeneral (List.mem_of_head? hc)),
    fun _ hc => not_isSpace_of_isNumberChar (mem_formatGeneral (List.mem_of_getLast? hc))⟩

/-! Rounding. -/

theorem roundEven_cases (x : ℚ) : roundEven x = ⌊x⌋₊ ∨ roundEven x = ⌊x⌋₊ + 1 := by
  unfold roundEven
  simp only
  split
  · exact .inl rfl
  · split
    · exact .inr rfl
    · omega

theorem roundEven_natCast (n : Nat) : roundEven (n : ℚ) = n := by
  unfold roundEven
  simp

theorem ten_zpow (e : Int) : (10 : ℚ) ^ e = 10 ^ 5 * 10 ^ (e - 5) := by
  rw [← zpow_natCast, ← zpow_add₀ (by norm_num)]
  norm_num

theorem ten_zpow_succ (e : Int) : (10 : ℚ) ^ (e + 1) = 10 ^ 6 * 10 ^ (e - 5) := by
  rw [← zpow_natCast, ← zpow_add₀ (by norm_num)]
  congr 1
  push_cast
  ring

theorem log_bounds (hv : 0 < v) :
    (10 : ℚ) ^ Int.log 10 v ≤ v ∧ v < (10 : ℚ) ^ (Int.log 10 v + 1) := by
  constructor
  · exact_mod_cast Int.zpow_log_le_self (b := 10) (by norm_num) hv
  · exact_mod_cast Int.lt_zpow_succ_log_self (b := 10) (by norm_num) v

/-- The six digits and the exponent of a number that has no more. -/
theorem sixDigits_exact {e : Int} (hlow : 10 ^ 5 ≤ m) (hhigh : m < 10 ^ 6)
    (hv : v = m * 10 ^ (e - 5)) : sixDigits v = (m, e) := by
  have hlow' : (10 : ℚ) ^ 5 ≤ m := by exact_mod_cast hlow
  have hhigh' : (m : ℚ) < 10 ^ 6 := by exact_mod_cast hhigh
  have hpow : (0 : ℚ) < 10 ^ (e - 5) := zpow_pos (by norm_num) _
  have hge : (10 : ℚ) ^ e ≤ v := by
    rw [hv, ten_zpow]
    exact mul_le_mul_of_nonneg_right hlow' hpow.le
  have hlt : v < (10 : ℚ) ^ (e + 1) := by
    rw [hv, ten_zpow_succ]
    exact mul_lt_mul_of_pos_right hhigh' hpow
  have hpos : 0 < v := lt_of_lt_of_le (zpow_pos (by norm_num) _) hge
  have hlog : Int.log 10 v = e := by
    have h₁ : e ≤ Int.log 10 v := (Int.zpow_le_iff_le_log (by norm_num) hpos).mp (by exact_mod_cast hge)
    have h₂ : Int.log 10 v < e + 1 :=
      (Int.lt_zpow_iff_log_lt (by norm_num) hpos).mp (by exact_mod_cast hlt)
    omega
  have hscaled : v * 10 ^ (5 - e) = (m : ℚ) := by
    rw [hv, mul_assoc, ← zpow_add₀ (by norm_num)]
    simp
  unfold sixDigits
  simp only [hlog, hscaled, roundEven_natCast]
  rw [if_neg (by omega)]

theorem sixDigits_bounds (hv : 0 < v) : 10 ^ 5 ≤ (sixDigits v).1 ∧ (sixDigits v).1 < 10 ^ 6 := by
  obtain ⟨hge, hlt⟩ := log_bounds hv
  have hpow : (0 : ℚ) < 10 ^ (5 - Int.log 10 v) := zpow_pos (by norm_num) _
  have hone : (10 : ℚ) ^ (Int.log 10 v - 5) * 10 ^ (5 - Int.log 10 v) = 1 := by
    rw [← zpow_add₀ (by norm_num)]
    simp
  have hlow : (10 : ℚ) ^ 5 ≤ v * 10 ^ (5 - Int.log 10 v) := by
    have h := mul_le_mul_of_nonneg_right hge hpow.le
    rwa [ten_zpow, mul_assoc, hone, mul_one] at h
  have hhigh : v * 10 ^ (5 - Int.log 10 v) < (10 : ℚ) ^ 6 := by
    have h := mul_lt_mul_of_pos_right hlt hpow
    rwa [ten_zpow_succ, mul_assoc, hone, mul_one] at h
  have hfloor : 10 ^ 5 ≤ ⌊v * 10 ^ (5 - Int.log 10 v)⌋₊ :=
    Nat.le_floor (by exact_mod_cast hlow)
  have hceil : ⌊v * 10 ^ (5 - Int.log 10 v)⌋₊ < 10 ^ 6 :=
    (Nat.floor_lt (by positivity)).mpr (by exact_mod_cast hhigh)
  unfold sixDigits
  simp only
  split
  · constructor <;> norm_num
  · rcases roundEven_cases (v * 10 ^ (5 - Int.log 10 v)) with h | h <;> omega

/-- The number that the text of a positive number shows. -/
def shown (v : ℚ) : ℚ :=
  let (m, e) := sixDigits v
  if -4 ≤ e ∧ e < 6 then m / 10 ^ (5 - e).toNat else m / 10 ^ 5

theorem shown_eq_iff (hv : 0 < v) : shown v = v ↔ ShownInFull v := by
  have habs : |v| = v := abs_of_pos hv
  obtain ⟨hlow, hhigh⟩ := sixDigits_bounds hv
  rcases hsix : sixDigits v with ⟨m, e⟩
  rw [hsix] at hlow hhigh
  simp only at hlow hhigh
  have hfixed : e < 6 → (m : ℚ) / 10 ^ (5 - e).toNat = m * 10 ^ (e - 5) := by
    intro he
    have hcast : (e - 5 : ℤ) = -((5 - e).toNat : ℤ) := by omega
    rw [hcast, zpow_neg, zpow_natCast, div_eq_mul_inv]
  constructor
  · intro hshown
    simp only [shown, hsix] at hshown
    split at hshown
    · rename_i he
      rw [hfixed he.2] at hshown
      have hpow : (0 : ℚ) < 10 ^ (e - 5) := zpow_pos (by norm_num) _
      have hlow' : (10 : ℚ) ^ 5 ≤ m := by exact_mod_cast hlow
      have hhigh' : (m : ℚ) < 10 ^ 6 := by exact_mod_cast hhigh
      refine .inr ⟨?_, ?_, m, e - 5, hhigh, by rw [habs, hshown]⟩
      · have hexp : (10 : ℚ) ^ (-9 : ℤ) ≤ 10 ^ (e - 5) :=
          zpow_le_zpow_right₀ (by norm_num) (by omega)
        rw [habs, ← hshown]
        calc (1 : ℚ) / 10 ^ 4 = 10 ^ 5 * 10 ^ (-9 : ℤ) := by norm_num
          _ ≤ (m : ℚ) * 10 ^ (e - 5) := mul_le_mul hlow' hexp (by positivity) (by positivity)
      · have hexp : (10 : ℚ) ^ (e - 5) ≤ 10 ^ (0 : ℤ) :=
          zpow_le_zpow_right₀ (by norm_num) (by omega)
        rw [habs, ← hshown]
        calc (m : ℚ) * 10 ^ (e - 5) ≤ m * 10 ^ (0 : ℤ) :=
              mul_le_mul_of_nonneg_left hexp (by positivity)
          _ < 10 ^ 6 := by simpa using hhigh'
    · rename_i he
      have hzero : sixDigits v = (m, 0) := by
        refine sixDigits_exact hlow hhigh ?_
        rw [← hshown, div_eq_mul_inv]
        norm_num
      rw [hsix] at hzero
      obtain ⟨-, rfl⟩ := Prod.mk.inj hzero
      exact absurd (show (-4 : ℤ) ≤ 0 ∧ (0 : ℤ) < 6 by norm_num) he
  · rintro (hzero | ⟨hmin, hmax, k, z, hk, hkz⟩)
    · exact absurd hzero hv.ne'
    · rw [habs] at hmin hmax hkz
      obtain ⟨hge, hlt⟩ := log_bounds hv
      have hk' : (k : ℚ) < 10 ^ 6 := by exact_mod_cast hk
      have hmin' : (10 : ℚ) ^ (-4 : ℤ) < 10 ^ (Int.log 10 v + 1) :=
        lt_of_le_of_lt (le_trans (by norm_num) hmin) hlt
      have hmax' : (10 : ℚ) ^ Int.log 10 v < 10 ^ (6 : ℤ) :=
        lt_of_le_of_lt hge (lt_of_lt_of_le hmax (by norm_num))
      rw [zpow_lt_zpow_iff_right₀ (by norm_num)] at hmin' hmax'
      -- the six digits reach to the last one
      have hz : 0 ≤ z + (5 - Int.log 10 v) := by
        by_contra hneg
        have hpow : (0 : ℚ) < 10 ^ z := zpow_pos (by norm_num) _
        have hsmall : v < (10 : ℚ) ^ (z + 6) := by
          rw [hkz, zpow_add₀ (by norm_num), mul_comm]
          exact mul_lt_mul_of_pos_left (by exact_mod_cast hk') hpow
        have hexp : (10 : ℚ) ^ (z + 6) ≤ 10 ^ Int.log 10 v :=
          zpow_le_zpow_right₀ (by norm_num) (by omega)
        linarith
      obtain ⟨d, hd⟩ := Int.eq_ofNat_of_zero_le hz
      generalize hlog : Int.log 10 v = l at hge hlt hmin' hmax' hd
      have hv' : v = (k * 10 ^ d : ℕ) * 10 ^ (l - 5) := by
        have hexp : z = d + (l - 5) := by omega
        rw [hkz, hexp, zpow_add₀ (by norm_num), zpow_natCast]
        push_cast
        ring
      have hpow : (0 : ℚ) < 10 ^ (l - 5) := zpow_pos (by norm_num) _
      rw [hv', ten_zpow] at hge
      rw [hv', ten_zpow_succ] at hlt
      have hexact : sixDigits v = (k * 10 ^ d, l) :=
        sixDigits_exact (by exact_mod_cast le_of_mul_le_mul_right hge hpow)
          (by exact_mod_cast lt_of_mul_lt_mul_right hlt hpow.le) hv'
      obtain ⟨rfl, rfl⟩ := Prod.mk.inj (hsix.symm.trans hexact)
      simp only [shown, hsix]
      rw [if_pos (by omega), hfixed (by omega), ← hv']

theorem shownInFull_abs : ShownInFull |v| ↔ ShownInFull v := by
  simp [ShownInFull]

/-- The text of a number: a sign, digits, and an exponent or nothing; the digits alone are the
number if and only if it is shown in full. -/
theorem formatGeneral_shape (v : ℚ) :
    ∃ d tail, formatGeneral v = (if v < 0 then ['-'] else []) ++ (d ++ tail) ∧ Digits d ∧
      (∀ c ∈ tail.head?, c = 'e') ∧
      ((if v < 0 then -floatOf d else floatOf d) = v ↔ ShownInFull v) := by
  by_cases hv : v = 0
  · subst hv
    have hdigit : ∀ c ∈ ['0'], isDigit c := List.forall_mem_singleton.mpr (by decide)
    refine ⟨['0'], [], by simp [formatGeneral], .whole (by simp) hdigit, by simp, ?_⟩
    simp [ShownInFull, floatOf]
    decide
  · have hpos : 0 < |v| := abs_pos.mpr hv
    have hsign : ∀ x : ℚ, (if v < 0 then -x else x) = v ↔ x = |v| := by
      intro x
      split
      · rename_i hneg
        rw [abs_of_neg hneg]
        constructor <;> intro h <;> linarith
      · rename_i hnonneg
        rw [abs_of_nonneg (not_lt.mp hnonneg)]
    have hshown := (shown_eq_iff hpos).trans shownInFull_abs
    unfold formatGeneral
    unfold shown at hshown
    rw [if_neg hv]
    simp only at hshown ⊢
    by_cases he : -4 ≤ (sixDigits |v|).2 ∧ (sixDigits |v|).2 < 6
    · rw [if_pos he] at hshown
      refine ⟨decimalText (sixDigits |v|).1 (5 - (sixDigits |v|).2).toNat, [], by simp [he],
        digits_decimalText _ _, by simp, ?_⟩
      rw [hsign, floatOf_decimalText]
      exact hshown
    · rw [if_neg he] at hshown
      refine ⟨decimalText (sixDigits |v|).1 5, 'e' :: exponentText (sixDigits |v|).2,
        by rw [if_neg he], digits_decimalText _ _, by simp, ?_⟩
      rw [hsign, floatOf_decimalText]
      exact hshown

end PyText
