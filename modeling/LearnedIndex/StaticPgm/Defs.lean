import LearnedIndex.DynamicPgm.Defs
import LearnedIndex.PiecewiseLinear.Defs
import LearnedIndex.Searches.Window

/-! `PGMIndex`: levels of segments, each one over the first keys of the segments below it.  Keys
are unsigned integers of `w` bits.  Slopes and intercepts are rational numbers until they become
integers, so nothing is rounded that the code does not round on purpose. -/

namespace LearnedIndex.StaticPgm

open PiecewiseLinear Searches DynamicPgm

/-- `std::numeric_limits<K>::max()`. -/
def maxKey (w : Nat) : Nat := 2 ^ w - 1

/-- `std::round`: to the nearest integer, from the middle away from zero. -/
def round (q : ℚ) : Int := if 0 ≤ q then ⌊q + 1 / 2⌋ else ⌈q - 1 / 2⌉

/-- The conversion to an integer type, towards zero. -/
def truncate (q : ℚ) : Int := if 0 ≤ q then ⌊q⌋ else ⌈q⌉

/-- The conversion of an `int32_t` to `size_t`. -/
def toSize (i : Int) : Nat := (i % 2 ^ 64).toNat

/-- `ADD_ERR` -/
def addErr (x error size : Nat) : Nat := if x + error ≥ size then size else x + error

/-- `SUB_ERR` -/
def subErr (x error : Nat) : Nat := if x ≤ error then 0 else x - error

structure Segment where
  key : Nat
  slope : ℚ
  intercept : Int
  deriving DecidableEq

namespace Segment

/-- `Segment(size_t n)`: the intercept keeps 32 bits. -/
def padding (w n : Nat) : Segment := ⟨maxKey w, 0, Int.bmod n (2 ^ 32)⟩

/-- The segment of a line; `none` for an intercept that `int32_t` can not hold. -/
def ofCanonical (cs : CanonicalSegment) : Option Segment :=
  let (slope, intercept) := cs.getFloatingPointSegment cs.getFirstX
  if intercept > 2 ^ 31 - 1 then none else some ⟨cs.getFirstX.toNat, slope, round intercept⟩

/-- `operator()`; keys are subtracted modulo `2 ^ w`. -/
def approximate (w : Nat) (s : Segment) (k : Nat) : Nat :=
  let pos := truncate (s.slope * ((k + 2 ^ w - s.key) % 2 ^ w : Nat)) + s.intercept
  if pos > 0 then pos.toNat else 0

end Segment

/-- How a search class looks at positions of a range. -/
structure SearchMethod where
  search : (Int → Option Bool) → Int → Int → Int → Option Int
  search_spec : ∀ {probe : Int → Option Bool} {before : Int → Bool} {first last start : Int},
    Probes probe before first last → first ≤ start → start ≤ last →
      Returns (search probe first last start) (Cut before first last)

/-- `at`, for the keys of the segments. -/
def readKey (segments : List Segment) (i : Int) : Option Nat :=
  if 0 ≤ i then (segments[i.toNat]?).map Segment.key else none

structure PGMIndex where
  n : Nat
  firstKey : Nat
  segments : List Segment
  levelsSizes : List Nat
  levelsOffsets : List Nat

namespace PGMIndex

/-- The points of the keys: the last one of equal keys stands for the next key if there is room. -/
def inFun (w : Nat) (data : List Nat) (i : Nat) : StoredPoint :=
  let x := data.getD i 0
  let next := (x + 1) % 2 ^ w
  if 0 < i ∧ i + 1 < data.length ∧ x = data.getD (i - 1) 0 ∧ x ≠ data.getD (i + 1) 0 ∧ next ≠ data.getD (i + 1) 0 then
    ⟨next, i⟩
  else ⟨x, i⟩

/-- `in_fun_rec`, on the segments from `offset` on. -/
def inFunRec (segments : List Segment) (offset i : Nat) : StoredPoint :=
  ⟨((segments[offset + i]?).map Segment.key).getD 0, i⟩

/-- What the constructor has when it adds a level. -/
structure Building where
  segments : List Segment
  levelsSizes : List Nat
  levelsOffsets : List Nat
  lastN : Nat

/-- `back_check`; `last` is the last key. -/
def backCheck (w last lastN : Nat) (segments : List Segment) (nSegments : Nat) : Option (List Segment × Nat) := do
  let back ← segments.getLast?
  if back.slope = 0 then
    return (segments ++ [⟨(last + 1) % 2 ^ w, 0, lastN⟩] ++ [Segment.padding w lastN], nSegments + 1)
  else return (segments ++ [Segment.padding w lastN], nSegments)

/-- A level: its segments, the check of the last one, and where the level is. -/
def addLevel (w last : Nat) (segmentation : Option (Nat × List Output)) (b : Building) : Option Building := do
  let (nSegments, out) ← segmentation
  let level ← out.mapM fun o => Segment.ofCanonical o.segment
  let (segments, nSegments) ← backCheck w last b.lastN (b.segments ++ level) nSegments
  let offset ← b.levelsOffsets.getLast?
  return ⟨segments, b.levelsSizes ++ [nSegments], b.levelsOffsets ++ [offset + nSegments + 1], nSegments⟩

/-- The levels above the first one. -/
def addUpperLevels (w last recursiveError : Nat) : Building → Option Building :=
  Loop.whileDo (fun b => some (decide (recursiveError ≠ 0 ∧ b.lastN > 1))) fun b => do
    let offset ← b.levelsOffsets[b.levelsOffsets.length - 2]?
    addLevel w last (makeSegmentation b.lastN recursiveError (inFunRec b.segments offset)) b

/-- The constructor on sorted keys; the greatest key is reserved for padding. -/
def build (w error recursiveError : Nat) (data : List Nat) : Option PGMIndex := do
  let firstKey ← data.head?
  let greatest ← data.getLast?
  let ignoreLast := if greatest = maxKey w then 1 else 0
  let lastN := data.length - ignoreLast
  let last := data.getD (lastN - 1) 0
  let b ← addLevel w last (makeSegmentationPar lastN error (inFun w data)) ⟨[], [], [0], lastN⟩
  let b ← addUpperLevels w last recursiveError b
  return ⟨data.length, firstKey, b.segments, b.levelsSizes, b.levelsOffsets.dropLast⟩

variable (method : SearchMethod) (w : Nat)

def upperBound (segments : List Segment) (lo hi key : Nat) : Option Nat :=
  (method.search (notGreaterProbe (readKey segments) key) lo hi lo).map Int.toNat

/-- `std::upper_bound` on the first `n` segments. -/
def stdUpperBound (segments : List Segment) (n key : Nat) : Nat :=
  (segments.take n).findIdx fun s => decide (key < s.key)

/-- The position that the segment at `it` gives, cut off at the next one. -/
def approximatePosition (idx : PGMIndex) (it key : Nat) : Option Nat := do
  let segment ← idx.segments[it]?
  let next ← idx.segments[it + 1]?
  return min (segment.approximate w key) (toSize next.intercept)

/-- `it = it == level_begin ? it : std::prev(it)` -/
def stepBack (levelBegin it : Nat) : Nat := if it = levelBegin then it else it - 1

/-- One level further down. -/
def descend (recursiveError : Nat) (idx : PGMIndex) (key it l : Nat) : Option Nat := do
  let levelBegin ← idx.levelsOffsets[l]?
  let pos ← approximatePosition w idx it key
  let levelSize ← idx.levelsSizes[l]?
  let lo := levelBegin + subErr pos (recursiveError + 1)
  let hi := levelBegin + addErr pos (recursiveError + 2) levelSize
  let it ← upperBound method idx.segments lo hi key
  return stepBack levelBegin it

/-- `segment_for_key` -/
def segmentForKey (recursiveError : Nat) (idx : PGMIndex) (key : Nat) : Option Nat :=
  if recursiveError = 0 then do
    let levelSize ← idx.levelsSizes[0]?
    return stepBack 0 (stdUpperBound idx.segments levelSize key)
  else do
    let it ← idx.levelsOffsets.getLast?
    (List.range (idx.levelsSizes.length - 1)).reverse.foldlM (descend method w recursiveError idx key) it

/-- `find_approximate_position` -/
def findApproximatePosition (error recursiveError : Nat) (idx : PGMIndex) (key : Nat) : Option ApproxPos := do
  let k := max idx.firstKey key
  let it ← segmentForKey method w recursiveError idx k
  let pos ← approximatePosition w idx it k
  return ⟨pos, subErr pos error, addErr pos (error + 1) idx.n⟩

end PGMIndex

end LearnedIndex.StaticPgm
