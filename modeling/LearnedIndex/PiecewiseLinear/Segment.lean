import LearnedIndex.PiecewiseLinear.AddPoint

/-! The line of a segment: it goes through the point where the extreme lines meet, with the mean of their slopes. -/

namespace LearnedIndex.PiecewiseLinear

open Stabbing

variable {ε : Nat} {f g : Line ℚ} {pts : List StoredPoint} {m : OptimalPiecewiseLinearModel} {s : CanonicalSegment}

namespace CanonicalSegment

/-- The line through all places that slope and intercept give. -/
def line (s : CanonicalSegment) (origin : Int) : Line ℚ :=
  let (slope, intercept) := s.getFloatingPointSegment origin
  ⟨slope, intercept - slope * origin⟩

def least (s : CanonicalSegment) : Line ℚ := Line.through plane s.rectangle.p0 s.rectangle.p2
def greatest (s : CanonicalSegment) : Line ℚ := Line.through plane s.rectangle.p1 s.rectangle.p3

theorem getSlopeRange_eq : s.getSlopeRange = (s.least.slope, s.greatest.slope) := by
  simp [getSlopeRange, Slope.toRat, sub_def, least, greatest, Line.through]

theorem line_slope (horigin : s.onePoint = false) (origin : Int) :
    (s.line origin).slope = (s.least.slope + s.greatest.slope) / 2 := by
  simp [line, getFloatingPointSegment, horigin, getSlopeRange_eq]

theorem line_eval_intersection (h : s.onePoint = false) (origin : Int) :
    (s.line origin).eval s.getIntersection.1 = s.getIntersection.2 := by
  simp only [line, getFloatingPointSegment, h, Line.eval, Bool.false_eq_true, if_false]
  ring

theorem least_eval_intersection (h : s.rectangle.p0.x < s.rectangle.p2.x) :
    s.least.eval s.getIntersection.1 = s.getIntersection.2 := by
  have hdx : (s.rectangle.p2.x - s.rectangle.p0.x : ℚ) ≠ 0 := sub_ne_zero.mpr (Int.cast_lt.mpr h).ne'
  rw [getIntersection]
  dsimp only
  split
  · exact Line.through_left
  · rw [least, Line.eval_eq _ (plane.x s.rectangle.p0), Line.through_left]
    simp only [Line.through, sub_def, plane_x, plane_y, Int.cast_sub]
    field_simp
    ring

theorem greatest_eval_intersection (h : s.rectangle.p1.x < s.rectangle.p3.x) (h1 : s.onePoint = false)
    (hne : (s.rectangle.p2 - s.rectangle.p0).eq (s.rectangle.p3 - s.rectangle.p1) = false) :
    s.greatest.eval s.getIntersection.1 = s.getIntersection.2 := by
  have hdx : (s.rectangle.p3.x - s.rectangle.p1.x : ℚ) ≠ 0 := sub_ne_zero.mpr (Int.cast_lt.mpr h).ne'
  have ha : ((s.rectangle.p2.x - s.rectangle.p0.x) * (s.rectangle.p3.y - s.rectangle.p1.y) -
      (s.rectangle.p2.y - s.rectangle.p0.y) * (s.rectangle.p3.x - s.rectangle.p1.x) : ℚ) ≠ 0 := by
    have hne' := of_decide_eq_false hne
    simp only [sub_def] at hne'
    rw [sub_ne_zero]
    exact_mod_cast Ne.symm hne'
  rw [getIntersection]
  dsimp only
  rw [if_neg (by simp [h1, hne]), greatest, Line.eval_eq _ (plane.x s.rectangle.p1), Line.through_left]
  simp only [Line.through, sub_def, plane_x, plane_y, Int.cast_sub, Int.cast_mul]
  -- Only the product of the quotient and its denominator matters.
  have hb := div_mul_cancel₀ ((s.rectangle.p1.x - s.rectangle.p0.x) * (s.rectangle.p3.y - s.rectangle.p1.y) -
    (s.rectangle.p1.y - s.rectangle.p0.y) * (s.rectangle.p3.x - s.rectangle.p1.x) : ℚ) ha
  generalize ((s.rectangle.p1.x - s.rectangle.p0.x) * (s.rectangle.p3.y - s.rectangle.p1.y) -
    (s.rectangle.p1.y - s.rectangle.p0.y) * (s.rectangle.p3.x - s.rectangle.p1.x) : ℚ) /
    ((s.rectangle.p2.x - s.rectangle.p0.x) * (s.rectangle.p3.y - s.rectangle.p1.y) -
      (s.rectangle.p2.y - s.rectangle.p0.y) * (s.rectangle.p3.x - s.rectangle.p1.x)) = b at hb ⊢
  field_simp
  linear_combination hb

/-- The mean of the extreme lines, if these are the same where they are parallel. -/
theorem line_eval (h02 : s.rectangle.p0.x < s.rectangle.p2.x) (h13 : s.rectangle.p1.x < s.rectangle.p3.x)
    (h : s.onePoint = false)
    (hsame : s.least.slope = s.greatest.slope → s.greatest.eval (plane.x s.rectangle.p0) = plane.y s.rectangle.p0)
    (origin : Int) (t : ℚ) : (s.line origin).eval t = (s.least.eval t + s.greatest.eval t) / 2 := by
  have hgreatest : s.greatest.eval s.getIntersection.1 = s.getIntersection.2 := by
    cases hparallel : (s.rectangle.p2 - s.rectangle.p0).eq (s.rectangle.p3 - s.rectangle.p1) with
    | true =>
      have heq : s.least.slope = s.greatest.slope := by
        have hcross := of_decide_eq_true hparallel
        simp only [sub_def] at hcross
        simp only [least, greatest, Line.through, plane_x, plane_y]
        rw [div_eq_div_iff (sub_ne_zero.mpr (Int.cast_lt.mpr h02).ne') (sub_ne_zero.mpr (Int.cast_lt.mpr h13).ne')]
        exact_mod_cast hcross.trans (mul_comm _ _)
      have hint : s.getIntersection = (plane.x s.rectangle.p0, plane.y s.rectangle.p0) := if_pos (by simp [hparallel])
      rw [hint]
      exact hsame heq
    | false => exact greatest_eval_intersection h13 h hparallel
  rw [Line.eval_eq _ s.getIntersection.1, line_eval_intersection h origin, Line.eval_eq s.least s.getIntersection.1,
    least_eval_intersection h02, Line.eval_eq s.greatest s.getIntersection.1, hgreatest, line_slope h origin]
  ring

theorem line_onePoint (h : s.onePoint = true) (origin : Int) :
    (s.line origin).slope = 0 ∧ ∀ t, (s.line origin).eval t = ((s.rectangle.p0.y + s.rectangle.p1.y).tdiv 2 : Int) := by
  simp [line, getFloatingPointSegment, h, Line.eval]

end CanonicalSegment

theorem Within.mean (hf : Within ε f pts) (hg : Within ε g pts) {l : Line ℚ} (hl : ∀ t, l.eval t = (f.eval t + g.eval t) / 2) :
    Within ε l pts := by
  intro p hp
  have hfp := abs_le.mp (hf p hp)
  have hgp := abs_le.mp (hg p hp)
  rw [hl, abs_le]
  constructor <;> linarith

namespace OptimalPiecewiseLinearModel

/-- The corners of a segment with at least two points. -/
theorem Holds.segment {p q : StoredPoint} (h : m.Holds (p :: q :: pts)) : m.getSegment = ⟨m.rectangle, m.firstX⟩ ∧
    m.getSegment.rectangle.p0.x < m.getSegment.rectangle.p2.x ∧ m.getSegment.rectangle.p1.x < m.getSegment.rectangle.p3.x ∧
      m.getSegment.onePoint = false := by
  have hcount : m.pointsInHull ≠ 1 := by simp [h.count]
  have hseg : m.getSegment = ⟨m.rectangle, m.firstX⟩ := if_neg hcount
  have hext : m.Extremes ((p :: q :: pts).map (lowerEnd m.error)) ((p :: q :: pts).map (upperEnd m.error)) := h.corners
  have h02 : m.rectangle.p0.x < m.rectangle.p2.x := Int.cast_lt.mp hext.least_lt
  refine ⟨hseg, ?_⟩
  rw [hseg]
  refine ⟨h02, Int.cast_lt.mp hext.greatest_lt, ?_⟩
  simp only [CanonicalSegment.onePoint, decide_eq_false_iff_not]
  exact fun heq => absurd heq.1 h02.ne

/-- The segment of one point. -/
theorem Holds.segment_one {p : StoredPoint} (h : m.Holds [p]) : m.getSegment.onePoint = true ∧
    (m.getSegment.rectangle.p0.y + m.getSegment.rectangle.p1.y).tdiv 2 = p.y := by
  obtain ⟨-, -, -, -, h0, h1⟩ := h.corners
  have hcount : m.pointsInHull = 1 := h.count
  have htwice : ((p.y : Int) + m.error + (p.y - m.error)).tdiv 2 = p.y := by
    rw [show (p.y : Int) + m.error + (p.y - m.error) = p.y * 2 by ring]
    exact Int.mul_tdiv_cancel _ (by decide)
  simpa [getSegment, hcount, CanonicalSegment.onePoint, h0, h1, upperEnd, lowerEnd] using htwice

theorem Holds.line_eval {p q : StoredPoint} (h : m.Holds (p :: q :: pts)) (origin : Int) (t : ℚ) :
    (m.getSegment.line origin).eval t = (m.least.eval t + m.greatest.eval t) / 2 := by
  obtain ⟨hseg, h02, h13, hone⟩ := h.segment
  have hext : m.Extremes ((p :: q :: pts).map (lowerEnd m.error)) ((p :: q :: pts).map (upperEnd m.error)) := h.corners
  have hsame : m.least.slope = m.greatest.slope → m.greatest.eval (plane.x m.rectangle.p0) = plane.y m.rectangle.p0 := by
    intro hslope
    refine le_antisymm (hext.greatest.2 _ (hext.upper.sub hext.upper.first_mem)) ?_
    -- From the right end of the flattest line back to its left end.
    have hback := Line.eval_le_left hext.least_lt.le hslope.ge (hext.least_eval_le le_rfl hslope.le
      (hext.greatest.1 _ (hext.lower.sub hext.lower.last_mem)))
    rwa [least, Line.through_left] at hback
  have heval := CanonicalSegment.line_eval h02 h13 hone (by rw [hseg]; exact hsame) origin t
  rw [heval, hseg]
  rfl

/-- The line of a segment is within the error of all its points. -/
theorem Holds.line_within (h : m.Holds pts) (origin : Int) : Within m.error (m.getSegment.line origin) pts := by
  match pts, h with
  | [], h => exact fun p hp => by cases hp
  | [p], h =>
    obtain ⟨hone, hy⟩ := h.segment_one
    intro q hq
    rw [List.mem_singleton.mp hq, (CanonicalSegment.line_onePoint hone origin).2, hy]
    simp
  | p :: q :: pts, h =>
    have hext : m.Extremes ((p :: q :: pts).map (lowerEnd m.error)) ((p :: q :: pts).map (upperEnd m.error)) := h.corners
    exact (within_iff_stabs.mpr hext.least).mean (within_iff_stabs.mpr hext.greatest) (h.line_eval origin)

theorem Holds.approximable (h : m.Holds pts) : Approximable m.error pts := ⟨_, h.line_within 0⟩

theorem y_lt_of_x_lt (hrises : pts.Pairwise fun a b => b.x < a.x ∧ b.y < a.y) {a b : StoredPoint} (ha : a ∈ pts) (hb : b ∈ pts)
    (hlt : a.x < b.x) : a.y < b.y := by
  induction pts with
  | nil => cases ha
  | cons c pts ih =>
    obtain ⟨hc, hpts⟩ := List.pairwise_cons.mp hrises
    rcases List.mem_cons.mp ha with rfl | ha'
    · rcases List.mem_cons.mp hb with rfl | hb'
      · exact absurd hlt (lt_irrefl _)
      · exact absurd hlt (hc b hb').1.not_gt
    · rcases List.mem_cons.mp hb with rfl | hb'
      · exact (hc a ha').2
      · exact ih hpts ha' hb'

/-- The steepest line rises from below a point to above a later one. -/
theorem Holds.greatest_corners {p q : StoredPoint} (h : m.Holds (p :: q :: pts)) : ∃ a ∈ p :: q :: pts, ∃ b ∈ p :: q :: pts,
    a.x < b.x ∧ m.greatest.eval a.x = a.y - m.error ∧ m.greatest.eval b.x = b.y + m.error := by
  have hext : m.Extremes ((p :: q :: pts).map (lowerEnd m.error)) ((p :: q :: pts).map (upperEnd m.error)) := h.corners
  obtain ⟨a, ha, hap⟩ := List.mem_map.mp (hext.lower.sub hext.lower.first_mem)
  obtain ⟨b, hb, hbp⟩ := List.mem_map.mp (hext.upper.sub hext.upper.last_mem)
  refine ⟨a, ha, b, hb, ?_, ?_, ?_⟩
  · have hlt := Int.cast_lt.mp hext.greatest_lt
    rwa [← hap, ← hbp] at hlt
  · have heval := Line.through_left (π := plane) (a := m.rectangle.p1) (b := m.rectangle.p3)
    rw [greatest, ← hap] at *
    simpa [lowerEnd] using heval
  · have heval := Line.through_right hext.greatest_lt.ne
    rw [greatest, ← hbp] at *
    simpa [upperEnd] using heval

theorem Holds.greatest_slope_pos {p q : StoredPoint} (h : m.Holds (p :: q :: pts))
    (hrises : (p :: q :: pts).Pairwise fun a b => b.x < a.x ∧ b.y < a.y) : 0 < m.greatest.slope := by
  obtain ⟨a, ha, b, hb, hx, hga, hgb⟩ := h.greatest_corners
  have hy : (a.y : ℚ) < b.y := Nat.cast_lt.mpr (y_lt_of_x_lt hrises ha hb hx)
  have herror : (0 : ℚ) ≤ m.error := Nat.cast_nonneg _
  rw [Line.eval_eq _ (a.x : ℚ), hga] at hgb
  have hpos : (0 : ℚ) < b.x - a.x := sub_pos.mpr (Int.cast_lt.mpr hx)
  refine pos_of_mul_pos_left ?_ hpos.le
  linarith

/-- The line of a segment rises when its points do. -/
theorem Holds.line_slope_pos {p q : StoredPoint} (h : m.Holds (p :: q :: pts))
    (hrises : (p :: q :: pts).Pairwise fun a b => b.x < a.x ∧ b.y < a.y) (origin : Int) :
    0 < (m.getSegment.line origin).slope := by
  obtain ⟨a, ha, b, hb, hx, hga, hgb⟩ := h.greatest_corners
  have hy : (a.y : ℚ) < b.y := Nat.cast_lt.mpr (y_lt_of_x_lt hrises ha hb hx)
  have hext : m.Extremes ((p :: q :: pts).map (lowerEnd m.error)) ((p :: q :: pts).map (upperEnd m.error)) := h.corners
  -- No line close to both points sinks by more than the errors.
  have hleast := within_iff_stabs.mpr hext.least
  have hla := (abs_le.mp (hleast a ha)).2
  have hlb := (abs_le.mp (hleast b hb)).1
  rw [Line.eval_eq _ (a.x : ℚ)] at hlb hgb
  rw [hga] at hgb
  have hpos : (0 : ℚ) < b.x - a.x := sub_pos.mpr (Int.cast_lt.mpr hx)
  obtain ⟨hseg, -, -, hone⟩ := h.segment
  rw [CanonicalSegment.line_slope hone, hseg]
  refine pos_of_mul_pos_left ?_ hpos.le
  simp only [CanonicalSegment.least, CanonicalSegment.greatest]
  rw [greatest] at hgb
  linarith

/-- The line of a segment is not above the newest point where the oldest one is. -/
theorem Holds.line_oldest_le {p : StoredPoint} (h : m.Holds (p :: pts))
    (hrises : (p :: pts).Pairwise fun a b => b.x < a.x ∧ b.y < a.y) {o : StoredPoint} (ho : o ∈ p :: pts)
    (hoa : ∀ a ∈ p :: pts, o.x ≤ a.x) (origin : Int) : (m.getSegment.line origin).eval o.x ≤ p.y := by
  match pts, h with
  | [], h =>
    obtain ⟨hone, hy⟩ := h.segment_one
    rw [(CanonicalSegment.line_onePoint hone origin).2, hy, Int.cast_natCast]
  | q :: pts, h =>
    obtain ⟨a, ha, b, hb, hx, hga, hgb⟩ := h.greatest_corners
    have hext : m.Extremes ((p :: q :: pts).map (lowerEnd m.error)) ((p :: q :: pts).map (upperEnd m.error)) := h.corners
    have hle : ∀ c ∈ p :: q :: pts, (c.y : ℚ) ≤ p.y := List.forall_mem_cons.mpr
      ⟨le_rfl, fun c hc => Nat.cast_le.mpr ((List.pairwise_cons.mp hrises).1 c hc).2.le⟩
    have hleast := (abs_le.mp (within_iff_stabs.mpr hext.least o ho)).2
    have hgreatest : m.greatest.eval o.x ≤ a.y - m.error := by
      rw [Line.eval_eq _ (a.x : ℚ), hga]
      have hdown := mul_nonpos_of_nonneg_of_nonpos (h.greatest_slope_pos hrises).le
        (sub_nonpos.mpr (Int.cast_le (R := ℚ).mpr (hoa a ha)))
      linarith
    have hay := hle a ha
    have hoy := hle o ho
    rw [h.line_eval, least]
    linarith

end OptimalPiecewiseLinearModel

end LearnedIndex.PiecewiseLinear
