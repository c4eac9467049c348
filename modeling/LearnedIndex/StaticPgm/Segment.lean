import LearnedIndex.PiecewiseLinear.Segmentation
import LearnedIndex.StaticPgm.Defs

/-! What rounding leaves of a line: a segment gives a position that is too small by less than
two, and too large by at most a half. -/

namespace LearnedIndex.StaticPgm

open Stabbing PiecewiseLinear

theorem round_le (q : ℚ) : round q ≤ q + 1 / 2 := by
  unfold round
  split
  · exact Int.floor_le _
  · have hlt := Int.ceil_lt_add_one (q - 1 / 2)
    linarith

theorem le_round (q : ℚ) : q - 1 / 2 ≤ round q := by
  unfold round
  split
  · have hlt := Int.lt_floor_add_one (q + 1 / 2)
    linarith
  · exact Int.le_ceil _

theorem round_le_of_le {q : ℚ} {i : Int} (h : q ≤ i) : round q ≤ i := by
  have hle := round_le q
  have hlt : (round q : ℚ) < i + 1 := by linarith
  exact Int.lt_add_one_iff.mp (by exact_mod_cast hlt)

theorem le_round_of_le {q : ℚ} {i : Int} (h : i ≤ q) : i ≤ round q := by
  have hle := le_round q
  have hlt : (i : ℚ) < round q + 1 := by linarith
  exact Int.lt_add_one_iff.mp (by exact_mod_cast hlt)

theorem toSize_of_nonneg {i : Int} (h : 0 ≤ i) (hlt : i < 2 ^ 31) : toSize i = i.toNat := by
  rw [toSize, Int.emod_eq_of_lt h (by omega)]

/-- The segment has this line, and its key is where the line begins. -/
structure Segment.OfLine (s : Segment) (l : Line ℚ) : Prop where
  slope_eq : s.slope = l.slope
  intercept_eq : s.intercept = round (l.eval s.key)
  slope_nonneg : 0 ≤ l.slope

namespace Segment.OfLine

variable {s : Segment} {l : Line ℚ} {w k y ε : Nat}

/-- The line is rounded twice, once down and once to the nearest integer. -/
theorem approximate_bounds (h : s.OfLine l) (hkey : s.key ≤ k) (hk : k < 2 ^ w) : ∃ z : Int, s.approximate w k = z.toNat ∧
    z ≤ l.eval k + 1 / 2 ∧ l.eval k - 3 / 2 < z := by
  have hsub : (k + 2 ^ w - s.key) % 2 ^ w = k - s.key := by
    rw [show k + 2 ^ w - s.key = k - s.key + 2 ^ w by omega, Nat.add_mod_right, Nat.mod_eq_of_lt (by omega)]
  have hnonneg : 0 ≤ s.slope * ((k - s.key : Nat) : ℚ) := mul_nonneg (h.slope_eq ▸ h.slope_nonneg) (Nat.cast_nonneg _)
  refine ⟨⌊s.slope * ((k - s.key : Nat) : ℚ)⌋ + s.intercept, ?_, ?_, ?_⟩
  · simp only [approximate, hsub, truncate, if_pos hnonneg]
    split
    · rfl
    · next hle => exact (Int.toNat_of_nonpos (not_lt.mp hle)).symm
  all_goals
    rw [Line.eval_eq _ (s.key : ℚ), h.intercept_eq, h.slope_eq, Int.cast_add, ← Nat.cast_sub hkey]
  · have hfloor := Int.floor_le (l.slope * ((k - s.key : Nat) : ℚ))
    have hround := round_le (l.eval s.key)
    linarith
  · have hfloor := Int.lt_floor_add_one (l.slope * ((k - s.key : Nat) : ℚ))
    have hround := le_round (l.eval s.key)
    linarith

theorem approximate_le (h : s.OfLine l) (hkey : s.key ≤ k) (hk : k < 2 ^ w) (hle : l.eval k ≤ y + ε) :
    s.approximate w k ≤ y + ε := by
  obtain ⟨z, hz, hupper, -⟩ := h.approximate_bounds hkey hk
  have hlt : (z : ℚ) < (y + ε + 1 : Int) := by
    push_cast
    linarith
  have hlt' := Int.cast_lt.mp hlt
  omega

theorem le_approximate (h : s.OfLine l) (hkey : s.key ≤ k) (hk : k < 2 ^ w) (hle : (y : ℚ) - ε ≤ l.eval k) :
    y ≤ s.approximate w k + ε + 1 := by
  obtain ⟨z, hz, -, hlower⟩ := h.approximate_bounds hkey hk
  have hlt : ((y - ε - 2 : Int) : ℚ) < z := by
    push_cast
    linarith
  have hlt' := Int.cast_lt.mp hlt
  omega

end Segment.OfLine

end LearnedIndex.StaticPgm
