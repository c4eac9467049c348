import Mathlib.Algebra.Order.Floor.Ring
import Mathlib.Algebra.Ring.Int.Parity
import Mathlib.Data.Int.Log
import Mathlib.Data.Rat.Floor

/-! Floating-point numbers with 53 bits, as rationals that every operation rounds to the nearest one
and to even from the middle.  Overflow and numbers too small for 53 bits are left out. -/

namespace LearnedIndex

/-- The nearest integer, the even one from the middle. -/
def nearestEven (x : ℚ) : ℤ :=
  let below := ⌊x⌋
  if x - below < 1 / 2 ∨ x - below = 1 / 2 ∧ Even below then below else below + 1

theorem abs_nearestEven_sub_le (x : ℚ) : |nearestEven x - x| ≤ 1 / 2 := by
  have hle := Int.floor_le x
  have hlt := Int.lt_floor_add_one x
  unfold nearestEven
  dsimp only
  split
  case isTrue h =>
    have hhalf : x - ⌊x⌋ ≤ 1 / 2 := h.elim le_of_lt fun h => h.1.le
    rw [abs_le]
    constructor <;> linarith
  case isFalse h =>
    have hhalf : 1 / 2 ≤ x - ⌊x⌋ := not_lt.mp fun hlt => h (.inl hlt)
    rw [Int.cast_add, Int.cast_one, abs_le]
    constructor <;> linarith

namespace Binary64

/-- What the last of 53 bits is worth. -/
def ulp (q : ℚ) : ℚ := 2 ^ (Int.log 2 |q| - 52)

def round (q : ℚ) : ℚ := nearestEven (q / ulp q) * ulp q

theorem ulp_pos (q : ℚ) : 0 < ulp q := zpow_pos two_pos _

theorem ulp_le {q : ℚ} (h : q ≠ 0) : ulp q ≤ |q| / 2 ^ 52 := by
  have hlog : (2 : ℚ) ^ Int.log 2 |q| ≤ |q| := Int.zpow_log_le_self (by decide) (abs_pos.mpr h)
  rw [ulp, zpow_sub₀ two_ne_zero]
  exact div_le_div_of_nonneg_right hlog (by positivity)

@[simp] theorem round_zero : round 0 = 0 := by
  have hzero : nearestEven 0 = 0 := by decide +kernel
  rw [round, zero_div, hzero, Int.cast_zero, zero_mul]

/-- The relative error of one rounding. -/
theorem abs_round_sub_le (q : ℚ) : |round q - q| ≤ |q| / 2 ^ 53 := by
  by_cases h : q = 0
  · rw [h, round_zero, sub_zero, abs_zero, zero_div]
  · have hulp := ulp_pos q
    have hsplit : round q - q = (nearestEven (q / ulp q) - q / ulp q) * ulp q := by
      rw [round, sub_mul, div_mul_cancel₀ q hulp.ne']
    calc
      |round q - q| = |nearestEven (q / ulp q) - q / ulp q| * ulp q := by
        rw [hsplit, abs_mul, abs_of_pos hulp]
      _ ≤ 1 / 2 * (|q| / 2 ^ 52) :=
        mul_le_mul (abs_nearestEven_sub_le _) (ulp_le h) hulp.le (by norm_num)
      _ = |q| / 2 ^ 53 := by ring

theorem round_le {q : ℚ} (h : 0 ≤ q) : round q ≤ q * (1 + 1 / 2 ^ 53) := by
  have herror := (abs_le.mp (abs_round_sub_le q)).2
  rw [abs_of_nonneg h] at herror
  linarith

theorem round_nonneg {q : ℚ} (h : 0 ≤ q) : 0 ≤ round q := by
  have herror := (abs_le.mp (abs_round_sub_le q)).1
  rw [abs_of_nonneg h] at herror
  linarith

/-- A number that 53 bits are enough for. -/
def Representable (q : ℚ) : Prop := ∃ significand exponent : ℤ, |significand| ≤ 2 ^ 53 ∧
  q = significand * 2 ^ exponent

theorem abs_div_ulp_lt (q : ℚ) : |q / ulp q| < 2 ^ 53 := by
  have hlog : |q| < (2 : ℚ) ^ (Int.log 2 |q| + 1) := Int.lt_zpow_succ_log_self (by decide) _
  have hpow : (2 : ℚ) ^ (Int.log 2 |q| + 1) = 2 ^ 53 * ulp q := by
    rw [ulp, ← zpow_natCast, ← zpow_add₀ two_ne_zero]
    congr 1
    omega
  rw [abs_div, abs_of_pos (ulp_pos q), div_lt_iff₀ (ulp_pos q), ← hpow]
  exact hlog

theorem representable_round (q : ℚ) : Representable (round q) := by
  refine ⟨nearestEven (q / ulp q), Int.log 2 |q| - 52, ?_, rfl⟩
  have herror := abs_le.mp (abs_nearestEven_sub_le (q / ulp q))
  have hsize := abs_lt.mp (abs_div_ulp_lt q)
  have hlow : (-2 ^ 53 - 1 : ℤ) < nearestEven (q / ulp q) := by
    rw [← Int.cast_lt (R := ℚ)]
    push_cast
    linarith
  have hhigh : nearestEven (q / ulp q) < (2 ^ 53 + 1 : ℤ) := by
    rw [← Int.cast_lt (R := ℚ)]
    push_cast
    linarith
  rw [abs_le]
  omega

end Binary64

/-- A `double`, as the rational it stands for. -/
structure Binary64 where
  toRat : ℚ
  representable : Binary64.Representable toRat

namespace Binary64

def ofRat (q : ℚ) : Binary64 := ⟨round q, representable_round q⟩

instance : Add Binary64 := ⟨fun a b => ofRat (a.toRat + b.toRat)⟩

instance : Sub Binary64 := ⟨fun a b => ofRat (a.toRat - b.toRat)⟩

instance : Mul Binary64 := ⟨fun a b => ofRat (a.toRat * b.toRat)⟩

instance : NatCast Binary64 := ⟨fun n => ofRat n⟩

instance : OfScientific Binary64 := ⟨fun mantissa sign exponent =>
  ofRat (OfScientific.ofScientific mantissa sign exponent)⟩

/-- Three roundings do not make up for a factor that is clearly below one. -/
theorem mul_lt_of_factor {c : ℚ} (hc : 0 ≤ c) (hlt : c * (1 + 1 / 2 ^ 53) ^ 3 < 1) {n : Nat} (hn : 0 < n) :
    ((n : Binary64) * ofRat c).toRat < n := by
  have hpos : (0 : ℚ) < n := Nat.cast_pos.mpr hn
  have hround : 0 ≤ round n * round c := mul_nonneg (round_nonneg hpos.le) (round_nonneg hc)
  calc
    round (round n * round c) ≤ round n * round c * (1 + 1 / 2 ^ 53) := round_le hround
    _ ≤ n * (1 + 1 / 2 ^ 53) * (c * (1 + 1 / 2 ^ 53)) * (1 + 1 / 2 ^ 53) := by
      gcongr
      · exact round_nonneg hc
      · exact round_le hpos.le
      · exact round_le hc
    _ = n * (c * (1 + 1 / 2 ^ 53) ^ 3) := by ring
    _ < n * 1 := by gcongr
    _ = n := mul_one _

end Binary64

end LearnedIndex
