import Mathlib.Data.Rat.Floor
import LearnedIndex.Loop

/-! `OptimalPiecewiseLinearModel` and `make_segmentation`.  Coordinates are exact integers, as
long as products of differences fit into `__int128`; what the code computes in `long double`
is computed in rational numbers. -/

namespace LearnedIndex.PiecewiseLinear

structure Slope where
  dx : Int
  dy : Int
  deriving DecidableEq

structure StoredPoint where
  x : Int
  y : Nat
  deriving DecidableEq

structure Point where
  x : Int
  y : Int
  deriving DecidableEq

namespace Slope

/-- `operator<`, right when the two `dx` have the same sign. -/
def lt (s p : Slope) : Bool := decide (s.dy * p.dx < s.dx * p.dy)

/-- `operator>`. -/
def gt (s p : Slope) : Bool := decide (s.dy * p.dx > s.dx * p.dy)

/-- `operator==`. -/
def eq (s p : Slope) : Bool := decide (s.dy * p.dx = s.dx * p.dy)

def toRat (s : Slope) : ℚ := s.dy / s.dx

end Slope

instance : HSub Point Point Slope where
  hSub q p := ⟨q.x - p.x, q.y - p.y⟩

def cross (O A B : Point) : Int :=
  let OA := A - O
  let OB := B - O
  OA.dx * OB.dy - OA.dy * OB.dx

/-- The points are kept as they are given, and the error is added when one is read. -/
structure Hull where
  error : Int
  stored : List StoredPoint

namespace Hull

def points (hull : Hull) : List Point := hull.stored.map fun p => ⟨p.x, p.y + hull.error⟩

def get (hull : Hull) (i : Nat) : Option Point := hull.points[i]?
def clear (hull : Hull) : Hull := { hull with stored := [] }
def resize (hull : Hull) (n : Nat) : Hull := { hull with stored := hull.stored.take n }
def size (hull : Hull) : Nat := hull.stored.length
def push (hull : Hull) (x : Int) (y : Nat) : Hull := { hull with stored := hull.stored ++ [⟨x, y⟩] }

end Hull

/-- The corners `rectangle[0]` to `rectangle[3]`. -/
structure Rectangle where
  p0 : Point
  p1 : Point
  p2 : Point
  p3 : Point
  deriving DecidableEq

structure OptimalPiecewiseLinearModel where
  error : Nat
  lower : Hull
  upper : Hull
  firstX : Int
  lastX : Int
  lowerStart : Nat
  upperStart : Nat
  pointsInHull : Nat
  rectangle : Rectangle

structure CanonicalSegment where
  rectangle : Rectangle
  first : Int
  deriving DecidableEq

/-- The loops that find an extreme slope, `lower[i]` or `upper[i]` being next. -/
def findExtreme (stops : Slope → Slope → Bool) (p : Point) (best : Slope) (bestI i : Nat) : List Point → Nat
  | [] => bestI
  | q :: rest =>
    let val := q - p
    if stops val best then bestI else findExtreme stops p val i (i + 1) rest

/-- The loops of the hull updates; `end` counts down. -/
def hullEnd (drops : Int → Bool) (hull : Hull) (start : Nat) (p : Point) : Nat → Option Nat
  | 0 => some 0
  | n + 1 =>
    if start + 2 ≤ n + 1 then do
      let a ← hull.get (n + 1 - 2)
      let b ← hull.get (n + 1 - 1)
      if drops (cross a b p) then hullEnd drops hull start p n else some (n + 1)
    else some (n + 1)

/-- What `add_point` does twice: finds the point of one hull with the extreme slope to `p`, and
pushes the new point on the other hull. -/
def narrow (stops : Slope → Slope → Bool) (drops : Int → Bool) (touched : Hull) (touchedStart : Nat)
    (extended : Hull) (extendedStart : Nat) (p : Point) (x : Int) (y : Nat) : Option (Point × Nat × Hull) := do
  let first ← touched.get touchedStart
  let i := findExtreme stops p (first - p) touchedStart (touchedStart + 1) (touched.points.drop (touchedStart + 1))
  let extreme ← touched.get i
  let n ← hullEnd drops extended extendedStart p extended.size
  return (extreme, i, (extended.resize n).push x y)

namespace OptimalPiecewiseLinearModel

def make (error : Nat) : OptimalPiecewiseLinearModel where
  error := error
  lower := ⟨-error, []⟩
  upper := ⟨error, []⟩
  firstX := 0
  lastX := 0
  lowerStart := 0
  upperStart := 0
  pointsInHull := 0
  rectangle := ⟨⟨0, 0⟩, ⟨0, 0⟩, ⟨0, 0⟩, ⟨0, 0⟩⟩

/-- The update when `p1` is below the line through `rectangle[1]` and `rectangle[3]`. -/
def updateGreatest (m : OptimalPiecewiseLinearModel) (slope2 : Slope) (p1 : Point) (x : Int) (y : Nat) :
    Option OptimalPiecewiseLinearModel :=
  if (p1 - m.rectangle.p1).lt slope2 then do
    let (extreme, i, upper) ←
      narrow Slope.gt (fun c => decide (c ≤ 0)) m.lower m.lowerStart m.upper m.upperStart p1 x y
    return { m with rectangle := { m.rectangle with p1 := extreme, p3 := p1 }, lowerStart := i, upper := upper }
  else some m

/-- The update when `p2` is above the line through `rectangle[0]` and `rectangle[2]`. -/
def updateLeast (m : OptimalPiecewiseLinearModel) (slope1 : Slope) (p2 : Point) (x : Int) (y : Nat) :
    Option OptimalPiecewiseLinearModel :=
  if (p2 - m.rectangle.p0).gt slope1 then do
    let (extreme, i, lower) ←
      narrow Slope.lt (fun c => decide (c ≥ 0)) m.upper m.upperStart m.lower m.lowerStart p2 x y
    return { m with rectangle := { m.rectangle with p0 := extreme, p2 := p2 }, upperStart := i, lower := lower }
  else some m

/-- `none` is the exception for points that do not increase, or an access outside of a hull. -/
def addPoint (m : OptimalPiecewiseLinearModel) (x : Int) (y : Nat) : Option (OptimalPiecewiseLinearModel × Bool) :=
  if 0 < m.pointsInHull ∧ x ≤ m.lastX then none
  else
    let m := { m with lastX := x }
    let p1 : Point := ⟨x, y + m.error⟩
    let p2 : Point := ⟨x, y - m.error⟩
    if m.pointsInHull = 0 then
      some ({ m with
        firstX := x
        rectangle := { m.rectangle with p0 := p1, p1 := p2 }
        upper := m.upper.clear.push x y
        lower := m.lower.clear.push x y
        upperStart := 0
        lowerStart := 0
        pointsInHull := m.pointsInHull + 1 }, true)
    else if m.pointsInHull = 1 then
      some ({ m with
        rectangle := { m.rectangle with p2 := p2, p3 := p1 }
        upper := m.upper.push x y
        lower := m.lower.push x y
        pointsInHull := m.pointsInHull + 1 }, true)
    else
      let slope1 := m.rectangle.p2 - m.rectangle.p0
      let slope2 := m.rectangle.p3 - m.rectangle.p1
      let outsideLine1 := (p1 - m.rectangle.p2).lt slope1
      let outsideLine2 := (p2 - m.rectangle.p3).gt slope2
      if outsideLine1 || outsideLine2 then some ({ m with pointsInHull := 0 }, false)
      else do
        let m ← m.updateGreatest slope2 p1 x y
        let m ← m.updateLeast slope1 p2 x y
        return ({ m with pointsInHull := m.pointsInHull + 1 }, true)

def getSegment (m : OptimalPiecewiseLinearModel) : CanonicalSegment :=
  if m.pointsInHull = 1 then
    ⟨⟨m.rectangle.p0, m.rectangle.p1, m.rectangle.p0, m.rectangle.p1⟩, m.firstX⟩
  else ⟨m.rectangle, m.firstX⟩

end OptimalPiecewiseLinearModel

namespace CanonicalSegment

def onePoint (s : CanonicalSegment) : Bool :=
  decide (s.rectangle.p0.x = s.rectangle.p2.x ∧ s.rectangle.p0.y = s.rectangle.p2.y ∧
    s.rectangle.p1.x = s.rectangle.p3.x ∧ s.rectangle.p1.y = s.rectangle.p3.y)

def getFirstX (s : CanonicalSegment) : Int := s.first

def getIntersection (s : CanonicalSegment) : ℚ × ℚ :=
  let p0 := s.rectangle.p0
  let p1 := s.rectangle.p1
  let p2 := s.rectangle.p2
  let p3 := s.rectangle.p3
  let slope1 := p2 - p0
  let slope2 := p3 - p1
  if s.onePoint || slope1.eq slope2 then (p0.x, p0.y)
  else
    let p0p1 := p1 - p0
    let a := slope1.dx * slope2.dy - slope1.dy * slope2.dx
    let b : ℚ := (p0p1.dx * slope2.dy - p0p1.dy * slope2.dx : Int) / (a : Int)
    (p0.x + b * slope1.dx, p0.y + b * slope1.dy)

def getSlopeRange (s : CanonicalSegment) : ℚ × ℚ :=
  ((s.rectangle.p2 - s.rectangle.p0).toRat, (s.rectangle.p3 - s.rectangle.p1).toRat)

/-- Slope and intercept; the intercept is where the line is at `origin`. -/
def getFloatingPointSegment (s : CanonicalSegment) (origin : Int) : ℚ × ℚ :=
  if s.onePoint then (0, ((s.rectangle.p0.y + s.rectangle.p1.y).tdiv 2 : Int))
  else
    let (ix, iy) := s.getIntersection
    let (minSlope, maxSlope) := s.getSlopeRange
    let slope := (minSlope + maxSlope) / 2
    (slope, iy - (ix - origin) * slope)

end CanonicalSegment

/-- A call of `out`. -/
structure Output where
  start : Nat
  last : Nat
  segment : CanonicalSegment

structure Segmentation where
  i : Nat
  start : Nat
  c : Nat
  p : StoredPoint
  opt : OptimalPiecewiseLinearModel
  out : List Output

/-- One round of the loop of `make_segmentation`; after a rejection `--i` and `++i` cancel out. -/
def Segmentation.round (input : Nat → StoredPoint) (s : Segmentation) : Option Segmentation :=
  let next := input s.i
  if s.i ≠ s.start ∧ next.x = s.p.x then some { s with i := s.i + 1 }
  else do
    let (opt, accepted) ← s.opt.addPoint next.x next.y
    if accepted then return { s with p := next, opt := opt, i := s.i + 1 }
    else
      return { s with
        p := next
        opt := opt
        out := s.out ++ [⟨s.start, s.i, opt.getSegment⟩]
        start := s.i
        c := s.c + 1 }

/-- The number of segments, and the calls of `out`. -/
def makeSegmentation (n error : Nat) (input : Nat → StoredPoint) : Option (Nat × List Output) :=
  if n = 0 then some (0, [])
  else do
    let p := input 0
    let (opt, _) ← (OptimalPiecewiseLinearModel.make error).addPoint p.x p.y
    let s ← Loop.whileDo (fun s => some (decide (s.i < n))) (Segmentation.round input) ⟨1, 0, 0, p, opt, []⟩
    return (s.c + 1, s.out ++ [⟨s.start, n, s.opt.getSegment⟩])

/-- The calls of `out` for the results of a chunk; each segment starts where the last one ends. -/
def restart : Nat → List Output → List Output
  | _, [] => []
  | start, o :: results => ⟨start, o.last, o.segment⟩ :: restart o.last results

/-- `make_segmentation_par`, whose `parallelism` is 1: the only chunk is the whole input. -/
def makeSegmentationPar (n error : Nat) (input : Nat → StoredPoint) : Option (Nat × List Output) :=
  if n < 2 ^ 20 then makeSegmentation n error input
  else do
    let (c, results) ← makeSegmentation n error input
    return (c, restart 0 results)

end LearnedIndex.PiecewiseLinear
