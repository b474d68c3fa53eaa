import RownRg.Lib.Decimal

/-! Double precision: numbers rounded to 53 binary digits, infinities, and what is no number. -/

namespace PyText

/-- The zeros of both signs are one value. -/
inductive Double where
  | nan
  | inf (negative : Bool)
  | finite (q : ℚ)
  deriving DecidableEq

namespace Double

variable {x y : Double} {q : ℚ}

/-- Rounds to the nearest double, to the even one from the middle. -/
def round (q : ℚ) : Double :=
  let exponent := max (Int.log 2 |q| - 52) (-1074)
  let magnitude := roundEven (|q| / 2 ^ exponent) * (2 : ℚ) ^ exponent
  if 2 ^ 1024 ≤ magnitude then inf (q < 0)
  else finite (if q < 0 then -magnitude else magnitude)

/-- `x < y`; nothing compares with what is no number. -/
def lt : Double → Double → Bool
  | finite q, finite r => q < r
  | finite _, inf negative => !negative
  | inf negative, finite _ => negative
  | inf negative, inf negative' => negative && !negative'
  | _, _ => false

/-- `x == y` -/
def eq : Double → Double → Bool
  | nan, _ => false
  | x, y => x = y

def le (x y : Double) : Bool := lt x y || eq x y

/-- `max(x, y)`: the second one only where it is greater. -/
def max (x y : Double) : Double := if lt x y then y else x

/-- `min(x, y)`: the second one only where it is smaller. -/
def min (x y : Double) : Double := if lt y x then y else x

def abs : Double → Double
  | finite q => finite |q|
  | inf _ => inf false
  | nan => nan

def sub : Double → Double → Double
  | finite q, finite r => round (q - r)
  | finite _, inf negative => inf (!negative)
  | inf negative, finite _ => inf negative
  | inf negative, inf negative' => if negative = negative' then nan else inf negative
  | _, _ => nan

def add : Double → Double → Double
  | finite q, finite r => round (q + r)
  | finite _, inf negative => inf negative
  | inf negative, finite _ => inf negative
  | inf negative, inf negative' => if negative = negative' then inf negative else nan
  | _, _ => nan

def mul : Double → Double → Double
  | finite q, finite r => round (q * r)
  | finite q, inf negative => if q = 0 then nan else inf (negative != decide (q < 0))
  | inf negative, finite r => if r = 0 then nan else inf (negative != decide (r < 0))
  | inf negative, inf negative' => inf (negative != negative')
  | _, _ => nan

/-- `x / y` for `y` other than zero. -/
def div : Double → Double → Double
  | finite q, finite r => round (q / r)
  | finite _, inf _ => finite 0
  | inf negative, finite r => inf (negative != decide (r < 0))
  | _, _ => nan

/-- Digits in groups that single underscores part. -/
def digitGroups (t : Text) : Option Text :=
  if t.isEmpty then some []
  else (digitsValue t).map fun _ => t.filter (· ≠ '_')

/-- What stands behind the `e`. -/
def exponentOf : Text → Option Int
  | [] => some 0
  | _ :: '-' :: t => (digitsValue t).map fun n => -(n : Int)
  | _ :: '+' :: t => (digitsValue t).map fun n => (n : Int)
  | _ :: t => (digitsValue t).map fun n => (n : Int)

/-- The number that digits, a point and an exponent spell. -/
def decimalOf (t : Text) : Option ℚ := do
  let isMark (c : Char) : Bool := c = 'e' || c = 'E'
  let digits := t.takeWhile fun c => !isMark c
  let whole ← digitGroups (digits.takeWhile (· ≠ '.'))
  let fraction ← digitGroups ((digits.dropWhile (· ≠ '.')).drop 1)
  let exponent ← exponentOf (t.dropWhile fun c => !isMark c)
  if whole.isEmpty && fraction.isEmpty then none
  else some (natOf (whole ++ fraction) * 10 ^ (exponent - fraction.length))

/-- The sign of a number, and the number without it. -/
def signed : Text → Bool × Text
  | '-' :: t => (true, t)
  | '+' :: t => (false, t)
  | t => (false, t)

/-- `float` of a text; `none` where it raises `ValueError`. -/
def ofText (t : Text) : Option Double :=
  let (negative, body) := signed (strip t)
  let word := body.map Char.toLower
  if word = "inf".toList || word = "infinity".toList then some (inf negative)
  else if word = "nan".toList then some nan
  else (decimalOf body).map fun q => round (if negative then -q else q)

/-! The order of the numbers. -/

theorem lt_nan (x : Double) : lt x nan = false := by
  cases x <;> rfl

theorem eq_comm (x y : Double) : eq x y = eq y x := by
  cases x <;> cases y <;> simp [eq, Eq.comm]

/-- Of two different numbers one is smaller. -/
theorem lt_swap (hx : x ≠ nan) (hy : y ≠ nan) (h : eq x y = false) : lt y x = !lt x y := by
  cases x with
  | nan => exact absurd rfl hx
  | inf negative =>
    cases y with
    | nan => exact absurd rfl hy
    | inf negative' =>
      have hne : negative ≠ negative' := by simpa [eq] using h
      cases negative <;> cases negative' <;> simp_all [lt]
    | finite r => simp [lt]
  | finite q =>
    cases y with
    | nan => exact absurd rfl hy
    | inf negative => simp [lt]
    | finite r =>
      have hne : q ≠ r := by simpa [eq] using h
      rw [lt, lt, ← decide_not, decide_eq_decide, not_lt]
      exact ⟨le_of_lt, fun hle => lt_of_le_of_ne hle hne.symm⟩

theorem max_comm (hx : x ≠ nan) (hy : y ≠ nan) (h : eq x y = false) : max x y = max y x := by
  unfold max
  rw [lt_swap hx hy h]
  cases lt x y <;> rfl

theorem min_comm (hx : x ≠ nan) (hy : y ≠ nan) (h : eq x y = false) : min x y = min y x := by
  unfold min
  rw [lt_swap hx hy h]
  cases lt x y <;> rfl

theorem round_zero : round 0 = finite 0 := by
  have hhalf : roundEven 0 = 0 := by simp [roundEven]
  simp [round, hhalf]

/-- A number that is not negative is not rounded below zero. -/
theorem lt_round_zero (hq : 0 ≤ q) : lt (round q) (finite 0) = false := by
  have hneg : ¬ q < 0 := not_lt.mpr hq
  have hmagnitude : ∀ (n : Nat) (e : Int), 0 ≤ (n : ℚ) * (2 : ℚ) ^ e := fun n e =>
    mul_nonneg n.cast_nonneg (zpow_nonneg zero_le_two e)
  simp only [round, hneg, if_false]
  split
  · rfl
  · exact decide_eq_false (not_lt.mpr (hmagnitude _ _))

/-- A number less itself is nothing to the number. -/
theorem div_sub_self (x : Double) : div (sub x x) x = nan ∨ div (sub x x) x = finite 0 := by
  cases x with
  | nan => exact .inl rfl
  | inf negative => exact .inl (by simp [sub, div])
  | finite q => exact .inr (by simp [sub, div, round_zero])

end Double

end PyText
