import LearnedIndex.StaticPgm.Segment

/-! One level of the index: whichever segment is the one for a key, its position is close to all
points on both sides of the key. -/

namespace LearnedIndex.StaticPgm

open Stabbing PiecewiseLinear

variable {w firstKey last m ε a b c q : Nat} {input : Nat → StoredPoint} {s : Segment} {segs : List Segment}

/-- What the points of a level are: their numbers, at keys that do not fall. -/
structure Points (firstKey last m : Nat) (input : Nat → StoredPoint) : Prop where
  ascending : Ascending input m
  first : (input 0).x = firstKey
  le : ∀ i < m, (input i).x ≤ last + 1
  y_eq : ∀ i < m, (input i).y = i

theorem Points.firstKey_le (h : Points firstKey last m input) {i : Nat} (hi : i < m) : (firstKey : Int) ≤ (input i).x :=
  h.first ▸ h.ascending 0 i (Nat.zero_le i) hi

theorem Points.toNat (h : Points firstKey last m input) {i : Nat} (hi : i < m) : (((input i).x.toNat : Nat) : Int) = (input i).x :=
  Int.toNat_of_nonneg ((Int.natCast_nonneg _).trans (h.firstKey_le hi))

theorem Points.rises (h : Points firstKey last m input) (hb : b ≤ m) :
    (pointsBetween input a b).reverse.Pairwise fun p q => q.x < p.x ∧ q.y < p.y := by
  induction b with
  | zero => simp [pointsBetween]
  | succ b ih =>
    rcases Nat.lt_or_ge b a with hlt | hge
    · simp [pointsBetween, Nat.sub_eq_zero_of_le (Nat.succ_le_of_lt hlt)]
    rw [pointsBetween_succ hge, List.reverse_append]
    cases hfirst : isFirst input b with
    | false => exact ih (Nat.le_of_succ_le hb)
    | true =>
      refine List.pairwise_cons.mpr ⟨fun p hp => ?_, ih (Nat.le_of_succ_le hb)⟩
      have hp' := List.mem_reverse.mp hp
      refine ⟨h.ascending.lt_of_isFirst hb hfirst p hp', ?_⟩
      obtain ⟨i, -, hib, -, rfl⟩ := mem_pointsBetween.mp hp'
      rw [h.y_eq i (by omega), h.y_eq b hb]
      exact hib

/-- The segment is close to the points from `a` to `b`. -/
structure Covers (w ε : Nat) (input : Nat → StoredPoint) (s : Segment) (a b : Nat) : Prop where
  lt : a < b
  first : isFirst input a = true
  key_eq : (s.key : Int) = (input a).x
  le_intercept : (a : Int) - ε ≤ s.intercept
  intercept_le : s.intercept ≤ a + ε
  intercept_lt : s.intercept < b
  le_approximate : ∀ i, a ≤ i → i < b → isFirst input i = true → ∀ k, s.key ≤ k → k < 2 ^ w → (input i).x ≤ k →
    i ≤ s.approximate w k + ε + 1
  approximate_le : ∀ i, a ≤ i → i < b → isFirst input i = true → ∀ k, s.key ≤ k → k < 2 ^ w → (k : Int) ≤ (input i).x →
    s.approximate w k ≤ i + ε
  slope_pos : ∀ i, a < i → i < b → isFirst input i = true → s.slope ≠ 0

theorem line_eval_origin (cs : CanonicalSegment) (origin : Int) :
    (cs.line origin).eval origin = (cs.getFloatingPointSegment origin).2 := by
  simp [CanonicalSegment.line, Line.eval]

theorem eval_mono {l : Line ℚ} (hl : 0 ≤ l.slope) {s t : ℚ} (hst : s ≤ t) : l.eval s ≤ l.eval t := by
  rw [Line.eval_eq l s t]
  exact le_add_of_nonneg_right (mul_nonneg hl (sub_nonneg.mpr hst))

section Made

open Output

variable {o : Output}

theorem mem_points {i : Nat} (hi : o.start ≤ i) (hlast : i < o.last) (hfirst : isFirst input i = true) :
    input i ∈ (o.points input).reverse :=
  List.mem_reverse.mpr (mem_pointsBetween.mpr ⟨i, hi, hlast, hfirst, rfl⟩)

/-- The state that the segment was read from, with its points from the newest to the oldest. -/
theorem Points.state (hpts : Points firstKey last m input) (h : o.Made input ε) (hm : o.last ≤ m) :
    ∃ p pts, ∃ opt : OptimalPiecewiseLinearModel, (o.points input).reverse = p :: pts ∧ opt.Holds (p :: pts) ∧
      o.segment = opt.getSegment ∧ (p :: pts).Pairwise fun p q => q.x < p.x ∧ q.y < p.y := by
  obtain ⟨p, pts, heq⟩ := h.points_eq
  obtain ⟨opt, -, hopt, hseg⟩ := h.segment
  have hrises := hpts.rises (a := o.start) hm
  rw [← points] at hrises
  rw [heq] at hopt hrises
  exact ⟨p, pts, opt, heq, hopt, hseg, hrises⟩

theorem Points.slope_nonneg (hpts : Points firstKey last m input) (h : o.Made input ε) (hm : o.last ≤ m) (origin : Int) :
    0 ≤ (o.segment.line origin).slope := by
  obtain ⟨p, pts, opt, -, hopt, hseg, hrises⟩ := hpts.state h hm
  rw [hseg]
  cases pts with
  | nil => exact (CanonicalSegment.line_onePoint hopt.segment_one.1 origin).1.ge
  | cons q pts => exact (hopt.line_slope_pos hrises origin).le

theorem Points.slope_ne_zero (hpts : Points firstKey last m input) (h : o.Made input ε) (hm : o.last ≤ m) (origin : Int)
    {i : Nat} (hi : o.start < i) (hlast : i < o.last) (hfirst : isFirst input i = true) :
    (o.segment.line origin).slope ≠ 0 := by
  obtain ⟨p, pts, opt, heq, hopt, hseg, hrises⟩ := hpts.state h hm
  have hstart : input o.start ∈ p :: pts := heq ▸ mem_points le_rfl h.start_lt h.first
  have hlater : input i ∈ p :: pts := heq ▸ mem_points hi.le hlast hfirst
  rw [hseg]
  cases pts with
  | nil =>
    have hsame := congrArg StoredPoint.y ((List.mem_singleton.mp hlater).trans (List.mem_singleton.mp hstart).symm)
    rw [hpts.y_eq i (by omega), hpts.y_eq o.start (by omega)] at hsame
    exact absurd hsame hi.ne'
  | cons q pts => exact (hopt.line_slope_pos hrises origin).ne'

/-- The intercept is not above the last number. -/
theorem Points.eval_start_lt (hpts : Points firstKey last m input) (h : o.Made input ε) (hm : o.last ≤ m) (origin : Int) :
    ∃ y : Nat, y < o.last ∧ (o.segment.line origin).eval (input o.start).x ≤ y := by
  obtain ⟨p, pts, opt, heq, hopt, hseg, hrises⟩ := hpts.state h hm
  have hstart : input o.start ∈ p :: pts := heq ▸ mem_points le_rfl h.start_lt h.first
  have hindex : ∀ r ∈ p :: pts, ∃ i, o.start ≤ i ∧ i < o.last ∧ input i = r := by
    intro r hr
    obtain ⟨i, hi, hlast, -, hri⟩ := mem_pointsBetween.mp (List.mem_reverse.mp (heq ▸ hr))
    exact ⟨i, hi, hlast, hri⟩
  have hoa : ∀ r ∈ p :: pts, (input o.start).x ≤ r.x := by
    intro r hr
    obtain ⟨i, hi, hlast, rfl⟩ := hindex r hr
    exact hpts.ascending _ _ hi (by omega)
  obtain ⟨i, -, hlast, rfl⟩ := hindex p List.mem_cons_self
  refine ⟨i, hlast, ?_⟩
  rw [hseg, ← hpts.y_eq i (by omega)]
  exact hopt.line_oldest_le hrises hstart hoa origin

/-- The segment that is stored for a line. -/
theorem Points.covers (hpts : Points firstKey last m input) (h : o.Made input ε) (hm : o.last ≤ m) (hsize : m < 2 ^ 31) :
    ∃ s, Segment.ofCanonical o.segment = some s ∧ Covers w ε input s o.start o.last := by
  have hx := h.firstX
  have hnat := hpts.toNat (i := o.start) (by have := h.start_lt; omega)
  have horigin := line_eval_origin o.segment (input o.start).x
  have hwithin := h.line_within (input o.start).x
  obtain ⟨y, hy, hstart⟩ := hpts.eval_start_lt h hm (input o.start).x
  have hnonneg := hpts.slope_nonneg h hm (input o.start).x
  have hne := fun i hi hlast hfirst => hpts.slope_ne_zero h hm (input o.start).x (i := i) hi hlast hfirst
  have hslope : (o.segment.line (input o.start).x).slope = (o.segment.getFloatingPointSegment (input o.start).x).1 := rfl
  generalize o.segment.line (input o.start).x = l at *
  have hat : ∀ i, o.start ≤ i → i < o.last → isFirst input i = true → |l.eval (input i).x - i| ≤ ε := by
    intro i hi hlast hfirst
    have hi' := hwithin (input i) (mem_pointsBetween.mpr ⟨i, hi, hlast, hfirst, rfl⟩)
    rwa [hpts.y_eq i (by omega)] at hi'
  have hfit : ¬ l.eval (input o.start).x > 2 ^ 31 - 1 := by
    have hy' : (y : ℚ) + 1 ≤ 2 ^ 31 := by exact_mod_cast (by omega : y + 1 ≤ 2 ^ 31)
    rw [not_lt]
    linarith
  let s : Segment := ⟨(input o.start).x.toNat, l.slope, round (l.eval (input o.start).x)⟩
  have hofLine : s.OfLine l := ⟨rfl, by rw [← Int.cast_natCast, hnat], hnonneg⟩
  have habs := abs_le.mp (hat o.start le_rfl h.start_lt h.first)
  refine ⟨s, ?_, h.start_lt, h.first, hnat, ?_, ?_, ?_, ?_, ?_, hne⟩
  · rw [Segment.ofCanonical, hx]
    simp only [← horigin, ← hslope, if_neg hfit, s]
  · apply le_round_of_le
    push_cast
    linarith
  · apply round_le_of_le
    push_cast
    linarith
  · exact (round_le_of_le hstart).trans_lt (Int.ofNat_lt.mpr hy)
  · intro i hi hlast hfirst k hkey hk hxk
    have hi' := (abs_le.mp (hat i hi hlast hfirst)).1
    have hmono := eval_mono hnonneg (Int.cast_le (R := ℚ).mpr hxk)
    rw [Int.cast_natCast] at hmono
    exact hofLine.le_approximate hkey hk (by linarith)
  · intro i hi hlast hfirst k hkey hk hkx
    have hi' := (abs_le.mp (hat i hi hlast hfirst)).2
    have hmono := eval_mono hnonneg (Int.cast_le (R := ℚ).mpr hkx)
    rw [Int.cast_natCast] at hmono
    exact hofLine.approximate_le hkey hk (by linarith)

end Made

/-- The segments cover the points from `a` to `b` one after the other, all but the last one more
of them than a level line could follow. -/
def Tiled (w ε : Nat) (input : Nat → StoredPoint) : List Segment → Nat → Nat → Prop
  | [], a, b => a = b
  | s :: segs, a, b => ∃ c, Covers w ε input s a c ∧ Tiled w ε input segs c b ∧ (segs ≠ [] → a + 2 * ε < c)

theorem Tiled.le (h : Tiled w ε input segs a b) : a ≤ b := by
  induction segs generalizing a with
  | nil => exact (show a = b from h).le
  | cons s segs ih =>
    obtain ⟨c, hs, hrest, -⟩ := h
    exact hs.lt.le.trans (ih hrest)

theorem Tiled.lt (h : Tiled w ε input (s :: segs) a b) : a < b := by
  obtain ⟨c, hs, hrest, -⟩ := h
  exact hs.lt.trans_le hrest.le

/-- As many points as the error allows are close to a level line. -/
theorem Points.spans (hpts : Points firstKey last m input) (hac : a ≤ c) (hc : c < m)
    (hnot : ¬ Approximable ε (pointsBetween input a c ++ [input c])) : a + 2 * ε < c := by
  by_contra hle
  refine hnot ⟨⟨0, ((a : ℚ) + c) / 2⟩, fun p hp => ?_⟩
  have hp' : ∃ i, a ≤ i ∧ i ≤ c ∧ input i = p := by
    rcases List.mem_append.mp hp with hp | hp
    · obtain ⟨i, hi, hic, -, rfl⟩ := mem_pointsBetween.mp hp
      exact ⟨i, hi, hic.le, rfl⟩
    · exact ⟨c, hac, le_rfl, (List.mem_singleton.mp hp).symm⟩
  obtain ⟨i, hi, hic, rfl⟩ := hp'
  have hle' : (c : ℚ) ≤ a + 2 * ε := by exact_mod_cast not_lt.mp hle
  have hi' : (a : ℚ) ≤ i := Nat.cast_le.mpr hi
  have hic' : (i : ℚ) ≤ c := Nat.cast_le.mpr hic
  rw [hpts.y_eq i (by omega), Line.eval, zero_mul, zero_add, abs_le]
  constructor <;> linarith

/-- What `make_segmentation` puts out becomes segments that cover the points. -/
theorem Points.tiled (hpts : Points firstKey last m input) (hsize : m < 2 ^ 31) {out : List Output} (htiles : Output.Tiles out a m)
    (hmade : ∀ o ∈ out, o.Made input ε) (hfull : Greedy.Full (Approximable ε) (out.map (Output.points input))) :
    ∃ level, (out.mapM fun o => Segment.ofCanonical o.segment) = some level ∧ level.length = out.length ∧
      Tiled w ε input level a m := by
  induction out generalizing a with
  | nil => exact ⟨[], rfl, rfl, htiles⟩
  | cons o out ih =>
    obtain ⟨rfl, hrest⟩ := htiles
    obtain ⟨ho, hout⟩ := List.forall_mem_cons.mp hmade
    have hlast : o.last ≤ m := hrest.le fun o ho => (hout o ho).start_lt
    obtain ⟨s, hs, hcovers⟩ := hpts.covers (w := w) ho hlast hsize
    obtain ⟨level, hlevel, hlength, htiled⟩ := ih hrest hout (List.IsChain.tail hfull)
    refine ⟨s :: level, ?_, by simp [hlength], o.last, hcovers, htiled, fun hne => ?_⟩
    · simp [hs, hlevel]
    · cases out with
      | nil => exact absurd (List.length_eq_zero_iff.mp hlength) hne
      | cons o' out =>
        obtain ⟨hstart, hrest'⟩ := hrest
        have hhead := (hout o' List.mem_cons_self).head
        have hlt := (hout o' List.mem_cons_self).start_lt
        have hle := hrest'.le fun o ho => (hout o (List.mem_cons_of_mem _ ho)).start_lt
        have hnot := (List.isChain_cons_cons.mp hfull).1 _ hhead
        rw [hstart] at hnot
        exact hpts.spans hcovers.lt.le (by omega) hnot

theorem Tiled.le_key (hpts : Points firstKey last m input) (h : Tiled w ε input segs a m) :
    ∀ t ∈ segs, (input a).x ≤ t.key := by
  induction segs generalizing a with
  | nil => exact fun t ht => by cases ht
  | cons s segs ih =>
    obtain ⟨c, hs, hrest, -⟩ := h
    refine List.forall_mem_cons.mpr ⟨hs.key_eq.ge, fun t ht => ?_⟩
    have hc : c < m := by
      cases segs with
      | nil => cases ht
      | cons s' segs => exact hrest.lt
    exact (hpts.ascending a c hs.lt.le hc).trans (ih hrest t ht)

theorem Tiled.key_le (hpts : Points firstKey last m input) (h : Tiled w ε input segs a m) : ∀ t ∈ segs, t.key ≤ last + 1 := by
  induction segs generalizing a with
  | nil => exact fun t ht => by cases ht
  | cons s segs ih =>
    have ha := h.lt
    obtain ⟨c, hs, hrest, -⟩ := h
    have hkey := hs.key_eq
    have hle := hpts.le a ha
    exact List.forall_mem_cons.mpr ⟨by omega, ih hrest⟩

/-- With an error there are at least three points to a segment, but for the last one. -/
theorem Tiled.length_le (hε : 0 < ε) (h : Tiled w ε input (s :: segs) a m) : a + 3 * segs.length < m := by
  induction segs generalizing a s with
  | nil => exact h.lt
  | cons s' segs ih =>
    obtain ⟨c, -, hrest, hgap⟩ := h
    have hgap' := hgap (List.cons_ne_nil _ _)
    have hih := ih hrest
    rw [List.length_cons]
    omega

/-- Only the first segment may begin below zero. -/
theorem Tiled.intercept (h : Tiled w ε input (s :: segs) a m) : ∀ t ∈ segs, 0 ≤ t.intercept ∧ t.intercept < m := by
  induction segs generalizing a s with
  | nil => exact fun t ht => by cases ht
  | cons s' segs ih =>
    obtain ⟨c, -, hrest, hgap⟩ := h
    have hgap' := hgap (List.cons_ne_nil _ _)
    refine List.forall_mem_cons.mpr ⟨?_, ih hrest⟩
    obtain ⟨c', hs', hrest', -⟩ := hrest
    have hlow := hs'.le_intercept
    have hhigh := hs'.intercept_lt
    have hle := hrest'.le
    omega

/-- Segments begin at different keys. -/
theorem Tiled.pairwise (hpts : Points firstKey last m input) (h : Tiled w ε input segs a m) :
    segs.Pairwise fun s t => s.key < t.key := by
  induction segs generalizing a with
  | nil => exact .nil
  | cons s segs ih =>
    obtain ⟨c, hs, hrest, -⟩ := h
    refine List.pairwise_cons.mpr ⟨fun t ht => ?_, ih hrest⟩
    cases segs with
    | nil => cases ht
    | cons s' segs =>
      have hle := hrest.le_key hpts t ht
      have hc := hrest.lt
      obtain ⟨c', hs', -⟩ := hrest
      have hlt := hpts.ascending.lt_of_isFirst (a := a) hc hs'.first (input a)
        (mem_pointsBetween.mpr ⟨a, le_rfl, hs.lt, hs.first, rfl⟩)
      have hkey := hs.key_eq
      omega

/-- The position is close to the points in front of the key and behind it. -/
structure Close (ε : Nat) (input : Nat → StoredPoint) (a m q p : Nat) : Prop where
  ahead : ∀ i, a ≤ i → i < m → isFirst input i = true → (input i).x ≤ q → i ≤ p + ε + 1
  behind : ∀ i, a ≤ i → i < m → isFirst input i = true → (q : Int) ≤ (input i).x → p ≤ i + ε
  le : p ≤ m

/-- The last segment that begins at or before the key gives a close position, cut off where the
next one begins. -/
theorem Tiled.close (hpts : Points firstKey last m input) (hsize : m < 2 ^ 31) (hq : q < 2 ^ w) {next : Segment}
    (hnext : q < next.key) (hintercept : next.intercept = m) (h : Tiled w ε input (s :: segs) a m) (hs : s.key ≤ q)
    (tail : List Segment) : ∃ j t t', j < (s :: segs).length ∧ (s :: segs ++ next :: tail)[j]? = some t ∧
      (s :: segs ++ next :: tail)[j + 1]? = some t' ∧ t.key ≤ q ∧ q < t'.key ∧ Close ε input a m q (min (t.approximate w q) (toSize t'.intercept)) := by
  induction segs generalizing a s with
  | nil =>
    obtain ⟨c, hcovers, rfl, -⟩ := h
    have htoSize : toSize next.intercept = c := by
      rw [hintercept, toSize_of_nonneg (Int.natCast_nonneg _) (by omega), Int.toNat_natCast]
    refine ⟨0, s, next, Nat.one_pos, rfl, rfl, hs, hnext, ?_, ?_, ?_⟩
    · intro i hi him hfirst hx
      have hle := hcovers.le_approximate i hi him hfirst q hs hq hx
      omega
    · intro i hi him hfirst hx
      have hle := hcovers.approximate_le i hi him hfirst q hs hq hx
      omega
    · omega
  | cons s' segs ih =>
    obtain ⟨c, hcovers, hrest, hgap⟩ := h
    have hac := hcovers.lt
    have hcm := hrest.lt
    have hgap' := hgap (List.cons_ne_nil _ _)
    have hs' : Covers w ε input s' c _ := hrest.choose_spec.1
    have hend : hrest.choose ≤ m := hrest.choose_spec.2.1.le
    have hfirst' := hs'.first
    have hkey := hs'.key_eq
    rcases Nat.lt_or_ge q s'.key with hlt | hge
    · have hlow := hs'.le_intercept
      have hhigh := hs'.intercept_le
      have hbound := hs'.intercept_lt
      have htoSize : (toSize s'.intercept : Int) = s'.intercept := by
        rw [toSize_of_nonneg (by omega) (by omega), Int.toNat_of_nonneg (by omega)]
      refine ⟨0, s, s', by simp, rfl, rfl, hs, hlt, ?_, ?_, ?_⟩
      · intro i hi him hfirst hx
        have hic : i < c := by
          by_contra hci
          have hmono := hpts.ascending c i (not_lt.mp hci) him
          omega
        have hle := hcovers.le_approximate i hi hic hfirst q hs hq hx
        omega
      · intro i hi him hfirst hx
        rcases Nat.lt_or_ge i c with hic | hci
        · have hle := hcovers.approximate_le i hi hic hfirst q hs hq hx
          omega
        · omega
      · omega
    · obtain ⟨j, t, t', hj, ht, ht', hkt, hkt', hclose⟩ := ih hrest hge
      refine ⟨j + 1, t, t', Nat.succ_lt_succ hj, ht, ht', hkt, hkt', ?_, ?_, hclose.le⟩
      · intro i hi him hfirst hx
        rcases Nat.lt_or_ge i c with hic | hci
        · have hstart := hclose.ahead c le_rfl hcm hfirst' (by omega)
          omega
        · exact hclose.ahead i hci him hfirst hx
      · intro i hi him hfirst hx
        rcases Nat.lt_or_ge i c with hic | hci
        · have hbefore := hpts.ascending.lt_of_isFirst (a := a) hcm hfirst' (input i)
            (mem_pointsBetween.mpr ⟨i, hi, hic, hfirst, rfl⟩)
          omega
        · exact hclose.behind i hci him hfirst hx

end LearnedIndex.StaticPgm
