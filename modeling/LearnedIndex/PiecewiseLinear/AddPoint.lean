import Mathlib.Algebra.Order.Group.Unbundled.Abs
import LearnedIndex.Loop
import LearnedIndex.PiecewiseLinear.Hull

/-! `add_point` accepts a point as long as some line passes within the error of all points. -/

namespace LearnedIndex.PiecewiseLinear

open Stabbing

def lowerEnd (ε : Nat) (p : StoredPoint) : Point := ⟨p.x, p.y - ε⟩
def upperEnd (ε : Nat) (p : StoredPoint) : Point := ⟨p.x, p.y + ε⟩

/-- The line is within the error of all points. -/
def Within (ε : Nat) (f : Line ℚ) (pts : List StoredPoint) : Prop := ∀ p ∈ pts, |f.eval p.x - p.y| ≤ ε

def Approximable (ε : Nat) (pts : List StoredPoint) : Prop := ∃ f : Line ℚ, Within ε f pts

variable {ε : Nat} {f : Line ℚ} {pts : List StoredPoint} {a b p p1 p2 r0 r1 r2 r3 : Point} {x : Int} {y : Nat}
  {m : OptimalPiecewiseLinearModel}

theorem within_iff_stabs : Within ε f pts ↔ Stabs plane (pts.map (lowerEnd ε)) (pts.map (upperEnd ε)) f := by
  simp only [Within, Stabs, List.forall_mem_map, Line.Above, Line.Below, lowerEnd, upperEnd, plane_x, plane_y, abs_le,
    Int.cast_sub, Int.cast_add, Int.cast_natCast, ← forall₂_and]
  refine forall₂_congr fun p _ => and_congr ?_ ?_
  · rw [le_sub_iff_add_le, neg_add_eq_sub]
  · rw [sub_le_iff_le_add']

/-! The comparisons of `add_point` against the lines through two corners. -/

theorem lt_left_iff (h : plane.x a < plane.x b) :
    Slope.lt (p - a) (b - a) = true ↔ plane.y p < (Line.through plane a b).eval (plane.x p) := by
  rw [Line.lt_through_iff h, Slope.lt, decide_eq_true_eq, ← Int.cast_lt (R := ℚ)]
  simp only [sub_def, plane_x, plane_y, Int.cast_mul, Int.cast_sub]

theorem gt_left_iff (h : plane.x a < plane.x b) :
    Slope.gt (p - a) (b - a) = true ↔ (Line.through plane a b).eval (plane.x p) < plane.y p := by
  rw [Line.through_lt_iff h, Slope.gt, decide_eq_true_eq, gt_iff_lt, ← Int.cast_lt (R := ℚ)]
  simp only [sub_def, plane_x, plane_y, Int.cast_mul, Int.cast_sub]

theorem lt_right_iff (h : plane.x a < plane.x b) :
    Slope.lt (p - b) (b - a) = true ↔ plane.y p < (Line.through plane a b).eval (plane.x p) := by
  rw [Line.lt_through_iff h, Slope.lt, decide_eq_true_eq, ← Int.cast_lt (R := ℚ)]
  simp only [sub_def, plane_x, plane_y, Int.cast_mul, Int.cast_sub]
  constructor <;> intro h <;> linarith

theorem gt_right_iff (h : plane.x a < plane.x b) :
    Slope.gt (p - b) (b - a) = true ↔ (Line.through plane a b).eval (plane.x p) < plane.y p := by
  rw [Line.through_lt_iff h, Slope.gt, decide_eq_true_eq, gt_iff_lt, ← Int.cast_lt (R := ℚ)]
  simp only [sub_def, plane_x, plane_y, Int.cast_mul, Int.cast_sub]
  constructor <;> intro h <;> linarith

namespace OptimalPiecewiseLinearModel

/-- The corners and the hulls are those of the extreme lines. -/
def Extremes (m : OptimalPiecewiseLinearModel) (L U : List Point) : Prop :=
  Extremal plane L U (m.lower.points.drop m.lowerStart) (m.upper.points.drop m.upperStart)
    m.rectangle.p0 m.rectangle.p1 m.rectangle.p2 m.rectangle.p3

/-- What the updates of the corners and of the hulls leave alone. -/
structure SameFrame (m m' : OptimalPiecewiseLinearModel) : Prop where
  error : m'.error = m.error
  lowerError : m'.lower.error = m.lower.error
  upperError : m'.upper.error = m.upper.error
  firstX : m'.firstX = m.firstX
  lastX : m'.lastX = m.lastX
  pointsInHull : m'.pointsInHull = m.pointsInHull

theorem SameFrame.refl (m : OptimalPiecewiseLinearModel) : SameFrame m m := ⟨rfl, rfl, rfl, rfl, rfl, rfl⟩

def least (m : OptimalPiecewiseLinearModel) : Line ℚ := Line.through plane m.rectangle.p0 m.rectangle.p2
def greatest (m : OptimalPiecewiseLinearModel) : Line ℚ := Line.through plane m.rectangle.p1 m.rectangle.p3

variable {L U : List Point}

/-- The state between the two updates: the upper end is in, the lower end is not. -/
structure HalfAdded (m m' : OptimalPiecewiseLinearModel) (L U : List Point) (p1 : Point) : Prop where
  frame : SameFrame m m'
  corner0 : m'.rectangle.p0 = m.rectangle.p0
  corner2 : m'.rectangle.p2 = m.rectangle.p2
  extremes : m'.Extremes L (p1 :: U)
  greatest : min (m.greatest.eval p1.x) p1.y ≤ m'.greatest.eval p1.x
  front : ∀ d ∈ m'.upper.points.drop m'.upperStart, d.x < p1.x ∨ d = p1 ∧ p1.y < m.greatest.eval p1.x

theorem upper_step (h : m.Extremes L U) (hL : ∀ l ∈ L, l.x < p1.x) (hU : ∀ u ∈ U, u.x < p1.x)
    (hp : p1 = ⟨x, y + m.upper.error⟩) (hleast : m.least.eval p1.x ≤ p1.y) :
    Returns (m.updateGreatest (m.rectangle.p3 - m.rectangle.p1) p1 x y)
      fun m' => HalfAdded m m' L U p1 := by
  have hL' : ∀ l ∈ L, plane.x l < plane.x p1 := fun l hl => Int.cast_lt.mpr (hL l hl)
  have hU' : ∀ u ∈ U, plane.x u < plane.x p1 := fun u hu => Int.cast_lt.mpr (hU u hu)
  rw [updateGreatest]
  split
  · next hlt =>
    have hbelow := (lt_left_iff h.greatest_lt).mp hlt
    obtain ⟨s, k, upper, hnarrow, herror, hext⟩ := narrow_spec gt_stops nonpos_drops hp h
      (fun c hc => Or.inl (hL' c (h.lower.sub hc))) hU' hleast hbelow
    rw [hnarrow]
    refine Returns.some_iff.mpr ⟨⟨rfl, rfl, herror, rfl, rfl, rfl⟩, rfl, rfl, hext, ?_, fun d hd => ?_⟩
    · exact (min_le_right _ _).trans (Line.through_right hext.greatest_lt.ne).ge
    · rcases List.mem_cons.mp (hext.upper.sub hd) with rfl | hd
      · exact Or.inr ⟨rfl, hbelow⟩
      · exact Or.inl (hU d hd)
  · next hlt =>
    have habove : (Line.through plane m.rectangle.p1 m.rectangle.p3).eval (plane.x p1) ≤ plane.y p1 :=
      not_lt.mp fun hbelow => hlt ((lt_left_iff h.greatest_lt).mpr hbelow)
    refine Returns.some_iff.mpr ⟨.refl m, rfl, rfl, ?_, min_le_left _ _, fun d hd => Or.inl (hU d (h.upper.sub hd))⟩
    exact h.skip (hL' _ (h.lower.sub h.lower.last_mem)).le (hU' _ (h.upper.sub h.upper.last_mem)).le habove

theorem lower_step (h : m.Extremes L U) (hL : ∀ l ∈ L, l.x < p2.x) (hU : ∀ u ∈ U, u.x ≤ p2.x)
    (hfront : ∀ d ∈ m.upper.points.drop m.upperStart, d.x < p2.x ∨ d.x = p2.x ∧ (m.least.eval p2.x < p2.y → p2.y < d.y))
    (hp : p2 = ⟨x, y + m.lower.error⟩) (hgreatest : p2.y ≤ m.greatest.eval p2.x) :
    Returns (m.updateLeast (m.rectangle.p2 - m.rectangle.p0) p2 x y)
      fun m' => SameFrame m m' ∧ m'.Extremes (p2 :: L) U := by
  have hL' : ∀ l ∈ L, plane.x l < plane.x p2 := fun l hl => Int.cast_lt.mpr (hL l hl)
  have hflip := Extremal.flip h
  rw [updateLeast]
  split
  · next hgt =>
    have habove := (gt_left_iff h.least_lt).mp hgt
    have hfront' : ∀ d ∈ m.upper.points.drop m.upperStart, plane.flip.x d < plane.flip.x p2 ∨
        plane.flip.x d = plane.flip.x p2 ∧ plane.flip.y d < plane.flip.y p2 := fun d hd =>
      (hfront d hd).imp Int.cast_lt.mpr fun hd => ⟨congrArg Int.cast hd.1, neg_lt_neg (Int.cast_lt.mpr (hd.2 habove))⟩
    have hleast' : (Line.through plane.flip m.rectangle.p1 m.rectangle.p3).eval (plane.flip.x p2) ≤ plane.flip.y p2 := by
      rw [Line.through_flip, Line.neg_eval]
      exact neg_le_neg hgreatest
    have hgreatest' : plane.flip.y p2 < (Line.through plane.flip m.rectangle.p0 m.rectangle.p2).eval (plane.flip.x p2) := by
      rw [Line.through_flip, Line.neg_eval]
      exact neg_lt_neg habove
    obtain ⟨s, k, lower, hnarrow, herror, hext⟩ := narrow_spec lt_stops (by rw [Plane.flip_flip]; exact nonneg_drops) hp hflip
      hfront' hL' hleast' hgreatest'
    rw [hnarrow]
    refine Returns.some_iff.mpr ⟨⟨rfl, herror, rfl, rfl, rfl, rfl⟩, ?_⟩
    have hback := hext.flip
    rwa [Plane.flip_flip] at hback
  · next hgt =>
    have hbelow : plane.y p2 ≤ (Line.through plane m.rectangle.p0 m.rectangle.p2).eval (plane.x p2) :=
      not_lt.mp fun habove => hgt ((gt_left_iff h.least_lt).mpr habove)
    have hskip := hflip.skip (p := p2) (Int.cast_le.mpr (hU _ (h.upper.sub h.upper.last_mem)))
      (hL' _ (h.lower.sub h.lower.last_mem)).le (by
        rw [Line.through_flip, Line.neg_eval]
        exact neg_le_neg hbelow)
    have hback := hskip.flip
    rw [Plane.flip_flip] at hback
    exact Returns.some_iff.mpr ⟨.refl m, hback⟩

/-- Corners and hulls after these points, the newest first. -/
def Corners (m : OptimalPiecewiseLinearModel) : List StoredPoint → Prop
  | [] => True
  | [p] => m.lowerStart = 0 ∧ m.upperStart = 0 ∧ m.lower.stored = [p] ∧ m.upper.stored = [p] ∧
      m.rectangle.p0 = upperEnd m.error p ∧ m.rectangle.p1 = lowerEnd m.error p
  | p :: q :: pts => m.Extremes ((p :: q :: pts).map (lowerEnd m.error)) ((p :: q :: pts).map (upperEnd m.error))

/-- The points since the last reset, the newest first, are those in the hulls. -/
structure Holds (m : OptimalPiecewiseLinearModel) (pts : List StoredPoint) : Prop where
  lowerError : m.lower.error = -m.error
  upperError : m.upper.error = m.error
  count : m.pointsInHull = pts.length
  firstX : ∀ p ∈ pts.getLast?, m.firstX = p.x
  lastX : ∀ p ∈ pts.head?, m.lastX = p.x
  corners : m.Corners pts

theorem make_holds (ε : Nat) : (make ε).Holds [] where
  lowerError := rfl
  upperError := rfl
  count := rfl
  firstX p hp := by cases hp
  lastX p hp := by cases hp
  corners := trivial

/-- What a call leaves: the new point is in, or no line is close enough to all points, the
segment is still that of the others and the next point starts afresh. -/
def Added (m : OptimalPiecewiseLinearModel) (p : StoredPoint) (pts : List StoredPoint)
    (r : OptimalPiecewiseLinearModel × Bool) : Prop :=
  r.1.error = m.error ∧ if r.2 = true then r.1.Holds (p :: pts) else
    r.1.Holds [] ∧ r.1.getSegment = m.getSegment ∧ 2 ≤ pts.length ∧ ¬ Approximable m.error (p :: pts)

/-- Without an error there is one line, and no point is both below and above it. -/
theorem lower_lt_upper {p : StoredPoint}
    (h : m.Extremes (pts.map (lowerEnd m.error)) (pts.map (upperEnd m.error))) {t : ℚ} (ht : m.rectangle.p0.x ≤ t)
    (hleast : m.least.eval t < (lowerEnd m.error p).y) (hgreatest : (upperEnd m.error p).y < m.greatest.eval t) :
    (lowerEnd m.error p).y < (upperEnd m.error p).y := by
  rcases Nat.eq_zero_or_pos m.error with hzero | hpos
  · have hends : lowerEnd 0 = upperEnd 0 := funext fun q => by simp [lowerEnd, upperEnd]
    rw [hzero, hends] at h hleast
    rw [hzero] at hgreatest
    have hle : m.greatest.eval t ≤ m.least.eval t := Extremal.greatest_le_least h ht
    exact absurd (hleast.trans hgreatest) hle.not_gt
  · simp only [lowerEnd, upperEnd]
    omega

theorem addPoint_two {p q : StoredPoint} (h : m.Holds (p :: q :: pts)) (hx : ∀ r ∈ p :: q :: pts, r.x < x) :
    Returns (m.addPoint x y) (m.Added ⟨x, y⟩ (p :: q :: pts)) := by
  have hcount : m.pointsInHull = pts.length + 2 := h.count
  have h0 : m.pointsInHull ≠ 0 := by omega
  have h1 : m.pointsInHull ≠ 1 := by omega
  have hlast : ¬ (0 < m.pointsInHull ∧ x ≤ m.lastX) := by
    rw [h.lastX p rfl]
    exact fun hle => absurd (hx p List.mem_cons_self) hle.2.not_gt
  have hext : m.Extremes ((p :: q :: pts).map (lowerEnd m.error)) ((p :: q :: pts).map (upperEnd m.error)) := h.corners
  have hL : ∀ l ∈ (p :: q :: pts).map (lowerEnd m.error), l.x < x := List.forall_mem_map.mpr hx
  have hU : ∀ u ∈ (p :: q :: pts).map (upperEnd m.error), u.x < x := List.forall_mem_map.mpr hx
  rw [addPoint, if_neg hlast, if_neg h0, if_neg h1]
  dsimp only
  split
  · next houtside =>
    refine Returns.some_iff.mpr ⟨rfl, ?_⟩
    rw [if_neg Bool.false_ne_true]
    refine ⟨⟨h.lowerError, h.upperError, rfl, fun p hp => (by cases hp), fun p hp => (by cases hp), trivial⟩, ?_, by simp, ?_⟩
    · simp [getSegment, h1]
    · rintro ⟨f, hf⟩
      have hstabs : Stabs plane (lowerEnd m.error ⟨x, y⟩ :: (p :: q :: pts).map (lowerEnd m.error))
        (upperEnd m.error ⟨x, y⟩ :: (p :: q :: pts).map (upperEnd m.error)) f := within_iff_stabs.mp hf
      rcases (Bool.or_eq_true _ _).mp houtside with hunder | hover
      · have hnot := (lt_right_iff hext.least_lt).mp hunder
        exact Extremal.not_stabs (p := upperEnd m.error ⟨x, y⟩) hext (Int.cast_le.mpr (hL _ (hext.lower.sub hext.lower.last_mem)).le)
          hnot ⟨fun l hl => hstabs.1 l (List.mem_cons_of_mem _ hl), hstabs.2⟩
      · have hnot := (gt_right_iff hext.greatest_lt).mp hover
        have hflip := stabs_flip.mpr hstabs
        refine Extremal.not_stabs (p := lowerEnd m.error ⟨x, y⟩) hext.flip
          (Int.cast_le.mpr (hU _ (hext.upper.sub hext.upper.last_mem)).le) ?_
          ⟨fun l hl => hflip.1 l (List.mem_cons_of_mem _ hl), hflip.2⟩
        rw [Line.through_flip, Line.neg_eval]
        exact neg_lt_neg hnot
  · next hinside =>
    obtain ⟨hunder, hover⟩ := not_or.mp fun h => hinside ((Bool.or_eq_true _ _).mpr h)
    have hleast : m.least.eval x ≤ (upperEnd m.error ⟨x, y⟩).y := not_lt.mp fun h => hunder ((lt_right_iff hext.least_lt).mpr h)
    have hgreatest : (lowerEnd m.error ⟨x, y⟩).y ≤ m.greatest.eval x :=
      not_lt.mp fun h => hover ((gt_right_iff hext.greatest_lt).mpr h)
    have hupper : Returns (updateGreatest { m with lastX := x } (m.rectangle.p3 - m.rectangle.p1) (upperEnd m.error ⟨x, y⟩) x y) _ :=
      upper_step hext hL hU (by rw [h.upperError]; rfl) hleast
    apply hupper.bind
    intro m1 hm1
    have hslope : m.rectangle.p2 - m.rectangle.p0 = m1.rectangle.p2 - m1.rectangle.p0 := by rw [hm1.corner0, hm1.corner2]
    rw [hslope]
    have hleast1 : m1.least = m.least := by rw [least, least, hm1.corner0, hm1.corner2]
    have hfront : ∀ d ∈ m1.upper.points.drop m1.upperStart, d.x < x ∨
        d.x = x ∧ (m1.least.eval x < (lowerEnd m.error ⟨x, y⟩).y → (lowerEnd m.error ⟨x, y⟩).y < d.y) := by
      intro d hd
      rcases hm1.front d hd with hlt | ⟨rfl, habove⟩
      · exact Or.inl hlt
      · refine Or.inr ⟨rfl, fun hlt => ?_⟩
        exact lower_lt_upper hext (Int.cast_le.mpr (hU _ (hext.upper.sub hext.upper.first_mem)).le) (hleast1 ▸ hlt) habove
    have hgreatest1 : (lowerEnd m.error ⟨x, y⟩).y ≤ m1.greatest.eval x := by
      refine (le_min hgreatest (Int.cast_le.mpr ?_)).trans hm1.greatest
      simp only [lowerEnd, upperEnd]
      omega
    have herror : lowerEnd m.error ⟨x, y⟩ = ⟨x, y + m1.lower.error⟩ := by
      rw [hm1.frame.lowerError, h.lowerError, ← sub_eq_add_neg]
      rfl
    have hlower : Returns (m1.updateLeast (m1.rectangle.p2 - m1.rectangle.p0) (lowerEnd m.error ⟨x, y⟩) x y) _ :=
      lower_step hm1.extremes hL (List.forall_mem_cons.mpr ⟨le_rfl, fun u hu => (hU u hu).le⟩) hfront herror hgreatest1
    apply hlower.bind
    intro m2 ⟨hframe, hext2⟩
    refine Returns.some_iff.mpr ⟨hframe.error.trans hm1.frame.error, ?_⟩
    rw [if_pos rfl]
    have herror2 : m2.error = m.error := hframe.error.trans hm1.frame.error
    refine ⟨?_, ?_, ?_, ?_, ?_, ?_⟩
    · exact (hframe.lowerError.trans hm1.frame.lowerError).trans (h.lowerError.trans (herror2 ▸ rfl))
    · exact (hframe.upperError.trans hm1.frame.upperError).trans (h.upperError.trans (herror2 ▸ rfl))
    · exact congrArg (· + 1) ((hframe.pointsInHull.trans hm1.frame.pointsInHull).trans h.count)
    · exact fun r hr => (hframe.firstX.trans hm1.frame.firstX).trans (h.firstX r (by simpa using hr))
    · rintro r ⟨⟩
      exact hframe.lastX.trans hm1.frame.lastX
    · simp only [Corners, herror2]
      exact hext2

theorem addPoint_spec (h : m.Holds pts) (hx : ∀ r ∈ pts, r.x < x) : Returns (m.addPoint x y) (m.Added ⟨x, y⟩ pts) := by
  have hlast : ¬ (0 < m.pointsInHull ∧ x ≤ m.lastX) := by
    rintro ⟨hpos, hle⟩
    cases pts with
    | nil => exact absurd hpos (by simp [h.count])
    | cons p pts =>
      rw [h.lastX p rfl] at hle
      exact absurd (hx p List.mem_cons_self) hle.not_gt
  match pts, h, hx with
  | [], h, hx =>
    have hcount : m.pointsInHull = 0 := h.count
    rw [addPoint, if_neg hlast, if_pos hcount]
    refine Returns.some_iff.mpr ⟨rfl, ?_⟩
    rw [if_pos rfl]
    refine ⟨h.lowerError, h.upperError, ?_, ?_, ?_, rfl, rfl, rfl, rfl, rfl, rfl⟩
    · simp [hcount]
    · simp
    · simp
  | [p], h, hx =>
    have hcount : m.pointsInHull = 1 := h.count
    obtain ⟨hlower, hupper, hlowerStored, hupperStored, h0, h1⟩ := h.corners
    have hne : m.pointsInHull ≠ 0 := by omega
    rw [addPoint, if_neg hlast, if_neg hne, if_pos hcount]
    refine Returns.some_iff.mpr ⟨rfl, ?_⟩
    rw [if_pos rfl]
    refine ⟨h.lowerError, h.upperError, ?_, ?_, ?_, ?_⟩
    · simp [hcount]
    · simpa using h.firstX
    · simp
    · have hlowerPoints : m.lower.points = [lowerEnd m.error p] := by
        simp [Hull.points, hlowerStored, h.lowerError, lowerEnd, sub_eq_add_neg]
      have hupperPoints : m.upper.points = [upperEnd m.error p] := by
        simp [Hull.points, hupperStored, h.upperError, upperEnd]
      simp only [Corners, Extremes, Hull.points_push, hlower, hupper, h0, h1, hlowerPoints, hupperPoints, h.lowerError,
        h.upperError, ← sub_eq_add_neg]
      apply Extremal.two
      · rfl
      · rfl
      · exact Int.cast_lt.mpr (hx p List.mem_cons_self)
      · exact Int.cast_le.mpr (by simp only [lowerEnd, upperEnd]; omega)
      · exact Int.cast_le.mpr (by simp only [lowerEnd, upperEnd]; omega)
  | p :: q :: pts, h, hx => exact addPoint_two h hx

end OptimalPiecewiseLinearModel

end LearnedIndex.PiecewiseLinear
