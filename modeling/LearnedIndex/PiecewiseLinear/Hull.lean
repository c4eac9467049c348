import Mathlib.Data.List.Induction
import LearnedIndex.Stabbing
import LearnedIndex.PiecewiseLinear.Defs

/-! The loops over the two hulls: which point the extreme slope is found at, and what is left of
a hull when a point is pushed on it. -/

namespace LearnedIndex.PiecewiseLinear

open Stabbing

/-- Points in the plane of rational numbers. -/
def plane : Plane Point ℚ := ⟨fun p => p.x, fun p => p.y⟩

@[simp] theorem plane_x (p : Point) : plane.x p = p.x := rfl
@[simp] theorem plane_y (p : Point) : plane.y p = p.y := rfl

variable {π : Plane Point ℚ} {stops : Slope → Slope → Bool} {drops : Int → Bool} {a b c d p : Point} {C D rest : List Point}

/-- The search stops at a point that is under the line through the best one. -/
def Stops (π : Plane Point ℚ) (stops : Slope → Slope → Bool) : Prop :=
  ∀ c d p : Point, π.x c < π.x p → (stops (d - p) (c - p) = true ↔ π.y d < (Line.through π c p).eval (π.x d))

/-- A point of the hull is dropped when the line from the one in front of it to the new one
does not pass below it. -/
def Drops (π : Plane Point ℚ) (drops : Int → Bool) : Prop :=
  ∀ a b p : Point, π.x a < π.x p → (drops (cross a b p) = true ↔ π.y b ≤ (Line.through π a p).eval (π.x b))

theorem sub_def (q p : Point) : HSub.hSub q p = (⟨q.x - p.x, q.y - p.y⟩ : Slope) := rfl

theorem gt_stops : Stops plane Slope.gt := by
  intro c d p hc
  rw [Line.lt_through_iff hc, Slope.gt, decide_eq_true_eq, gt_iff_lt, ← Int.cast_lt (R := ℚ)]
  simp only [sub_def, plane_x, plane_y, Int.cast_mul, Int.cast_sub]
  constructor <;> intro h <;> linarith

theorem lt_stops : Stops plane.flip Slope.lt := by
  intro c d p hc
  rw [Line.lt_through_iff hc, Slope.lt, decide_eq_true_eq, ← Int.cast_lt (R := ℚ)]
  simp only [sub_def, Plane.flip_x, Plane.flip_y, plane_x, plane_y, Int.cast_mul, Int.cast_sub]
  constructor <;> intro h <;> linarith

theorem nonneg_drops : Drops plane fun c => decide (c ≥ 0) := by
  intro a b p hap
  rw [← not_lt, Line.through_lt_iff hap, decide_eq_true_eq, ge_iff_le, ← Int.cast_le (R := ℚ), not_lt]
  simp only [cross, sub_def, plane_x, plane_y, Int.cast_mul, Int.cast_sub, Int.cast_zero]
  constructor <;> intro h <;> linarith

theorem nonpos_drops : Drops plane.flip fun c => decide (c ≤ 0) := by
  intro a b p hap
  rw [← not_lt, Line.through_lt_iff hap, decide_eq_true_eq, ← Int.cast_le (R := ℚ), not_lt]
  simp only [cross, sub_def, Plane.flip_x, Plane.flip_y, plane_x, plane_y, Int.cast_mul, Int.cast_sub, Int.cast_zero]
  constructor <;> intro h <;> linarith

theorem findExtreme_spec (hstops : Stops π stops) (hC : Concave π (c :: rest))
    (hx : ∀ d ∈ c :: rest, π.x d < π.x p ∨ π.x d = π.x p ∧ π.y d < π.y p) (hc : π.x c < π.x p) (i : Nat) :
    ∃ A s B, c :: rest = A ++ s :: B ∧ findExtreme stops p (c - p) i (i + 1) rest = i + A.length ∧
      π.x s < π.x p ∧ ∀ d ∈ c :: rest, (Line.through π s p).Above π d := by
  have hcp : (Line.through π c p).Above π c := Line.through_left.ge
  induction rest generalizing c i with
  | nil => exact ⟨[], c, [], rfl, rfl, hc, by simpa using hcp⟩
  | cons d rest ih =>
    rw [findExtreme]
    split
    · next hstop =>
      -- The points behind `d` fall away from the line.
      have hd : (Line.through π c p).Above π d := ((hstops c d p hc).mp hstop).le
      refine ⟨[], c, d :: rest, rfl, rfl, hc, List.forall_mem_cons.mpr ⟨hcp, hC.above hcp ?_⟩⟩
      apply Line.slope_le_slope hC.1
      · rw [Line.through_left, Line.through_left]
      · rwa [Line.through_right hC.1.ne]
    · next hstop =>
      have hd : (Line.through π c p).eval (π.x d) ≤ π.y d := not_lt.mp fun h => hstop ((hstops c d p hc).mpr h)
      have hdx : π.x d < π.x p := by
        rcases hx d (List.mem_cons_of_mem c List.mem_cons_self) with h | ⟨h, hlt⟩
        · exact h
        · rw [h, Line.through_right hc.ne] at hd
          exact absurd hlt hd.not_gt
      obtain ⟨A, s, B, heq, hi, hs, habove⟩ :=
        ih hC.tail (fun e he => hx e (List.mem_cons_of_mem c he)) hdx (i + 1) Line.through_left.ge
      refine ⟨c :: A, s, B, by rw [heq, List.cons_append], ?_, hs, List.forall_mem_cons.mpr ⟨?_, habove⟩⟩
      · rw [hi, List.length_cons]
        omega
      · have hsp := Line.through_right (π := π) hs.ne
        have hslope : (Line.through π s p).slope ≤ (Line.through π c p).slope := by
          apply Line.slope_le_slope hdx
          · exact hd.trans (habove d List.mem_cons_self)
          · rw [hsp, Line.through_right hc.ne]
        refine hcp.trans (Line.eval_le_left hc.le hslope ?_)
        rw [hsp, Line.through_right hc.ne]

theorem Hull.get_append {hull : Hull} {A : List Point} (h : hull.points = A ++ b :: D) : hull.get A.length = some b := by
  rw [Hull.get, h, List.getElem?_append_right le_rfl, Nat.sub_self, List.getElem?_cons_zero]

/-- A hull keeps at least its first point, the last ones make a chain with the new point, and
what is dropped is below all lines that are above what stays. -/
theorem hullEnd_spec {hull : Hull} {A : List Point} (hdrops : Drops π drops) (hD : Concave π D) (hx : ∀ d ∈ D, π.x d < π.x p)
    (hne : D ≠ []) (hpoints : hull.points = A ++ D ++ rest) : ∃ E, E ≠ [] ∧ E <+: D ∧
      hullEnd drops hull A.length p (A.length + D.length) = some (A.length + E.length) ∧ Concave π (E ++ [p]) ∧
      ∀ f : Line ℚ, (∀ d ∈ E ++ [p], f.Above π d) → ∀ d ∈ D, f.Above π d := by
  induction D using List.reverseRecOn generalizing rest with
  | nil => exact absurd rfl hne
  | append_singleton D b ih =>
    rcases List.eq_nil_or_concat' D with rfl | ⟨D, a, rfl⟩
    · refine ⟨[b], List.cons_ne_nil b [], List.prefix_refl _, ?_, Concave.pair (hx b List.mem_cons_self),
        fun f hf d hd => hf d (List.mem_append_left [p] hd)⟩
      rw [List.nil_append, List.length_singleton, hullEnd, if_neg (by omega)]
    · have hlast : Concave π [a, b] := by
        rw [List.append_assoc] at hD
        exact hD.of_append
      have hab : π.x a < π.x b := hlast.1
      have hap : π.x a < π.x p := hx a (by simp)
      have hbp : π.x b < π.x p := hx b (by simp)
      have hgeta : hull.get (A.length + D.length) = some a := by
        rw [← List.length_append]
        apply Hull.get_append (D := b :: rest)
        simpa using hpoints
      have hgetb : hull.get (A.length + D.length + 1) = some b := by
        have hlen : A.length + D.length + 1 = (A ++ D ++ [a]).length := by simp; omega
        rw [hlen]
        apply Hull.get_append (D := rest)
        simpa using hpoints
      have hend : hullEnd drops hull A.length p (A.length + (D ++ [a] ++ [b]).length) =
          if drops (cross a b p) then hullEnd drops hull A.length p (A.length + (D ++ [a]).length)
          else some (A.length + (D ++ [a] ++ [b]).length) := by
        simp only [List.length_append, List.length_singleton]
        rw [← Nat.add_assoc, ← Nat.add_assoc, hullEnd, if_pos (by omega)]
        simp only [Nat.add_sub_cancel, hgetb, show A.length + D.length + 1 + 1 - 2 = A.length + D.length by omega, hgeta,
          Option.bind_eq_bind, Option.bind_some]
      rw [hend]
      split
      · next hdrop =>
        have hpoints' : hull.points = A ++ (D ++ [a]) ++ (b :: rest) := by simpa using hpoints
        obtain ⟨E, hne', hE, hr, hconcave, hcovers⟩ := ih hD.of_append_left (fun d hd => hx d (List.mem_append_left [b] hd))
          (List.append_ne_nil_of_right_ne_nil D (List.cons_ne_nil a [])) hpoints'
        refine ⟨E, hne', hE.trans (List.prefix_append _ _), hr, hconcave, fun f hf d hd => ?_⟩
        have hcovered := hcovers f hf
        rcases List.mem_append.mp hd with hd | hd
        · exact hcovered d hd
        · rw [List.mem_singleton.mp hd]
          refine ((hdrops a b p hap).mp hdrop).trans (Line.eval_le_between hab.le hbp.le ?_ ?_)
          · rw [Line.through_left]
            exact hcovered a (by simp)
          · rw [Line.through_right hap.ne]
            exact hf p (by simp)
      · next hdrop =>
        refine ⟨D ++ [a] ++ [b], by simp, List.prefix_refl _, rfl, ?_, fun f hf d hd => hf d (List.mem_append_left [p] hd)⟩
        have hkept : (Line.through π a p).eval (π.x b) < π.y b := not_le.mp fun h => hdrop ((hdrops a b p hap).mpr h)
        rw [List.append_assoc D] at hD ⊢
        exact Concave.concat hD hbp (slope_lt_slope hab hbp hkept)

namespace Hull

variable {hull : Hull} {n : Nat}

theorem points_push (x : Int) (y : Nat) : (hull.push x y).points = hull.points ++ [⟨x, y + hull.error⟩] := by
  simp [points, push]

theorem points_resize : (hull.resize n).points = hull.points.take n := by simp [points, resize]

end Hull

/-- The two loops together take the extreme lines one upper end further. -/
theorem narrow_spec {L U : List Point} {r0 r1 r2 r3 : Point} {touched extended : Hull} {i j : Nat} {x : Int} {y : Nat}
    (hstops : Stops π stops) (hdrops : Drops π.flip drops) (hp : p = ⟨x, y + extended.error⟩)
    (h : Extremal π L U (touched.points.drop i) (extended.points.drop j) r0 r1 r2 r3)
    (hC : ∀ c ∈ touched.points.drop i, π.x c < π.x p ∨ π.x c = π.x p ∧ π.y c < π.y p) (hU : ∀ u ∈ U, π.x u < π.x p)
    (hleast : (Line.through π r0 r2).eval (π.x p) ≤ π.y p) (hgreatest : π.y p < (Line.through π r1 r3).eval (π.x p)) :
    ∃ s k extended', narrow stops drops touched i extended j p x y = some (s, k, extended') ∧ extended'.error = extended.error ∧
      Extremal π L (p :: U) (touched.points.drop k) (extended'.points.drop j) r0 s r2 p := by
  have hr1 : π.x r1 < π.x p := h.greatest_lt.trans (hU r3 (h.upper.sub h.upper.last_mem))
  obtain ⟨rest, hrest⟩ : ∃ rest, touched.points.drop i = r1 :: rest := List.head?_eq_some_iff.mp h.lower.head
  have hrest' : touched.points.drop (i + 1) = rest := by rw [← List.tail_drop, hrest, List.tail_cons]
  have hfirst : touched.get i = some r1 := by rw [Hull.get, ← List.head?_drop, h.lower.head]
  rw [hrest] at hC
  obtain ⟨A, s, B, heq, hk, hs, htouch⟩ := findExtreme_spec hstops (hrest ▸ h.lower.concave) hC hr1 i
  have hdrop : touched.points.drop (i + A.length) = s :: B := by
    rw [← List.drop_drop, hrest, heq, List.drop_left]
  have hextreme : touched.get (i + A.length) = some s := by rw [Hull.get, ← List.head?_drop, hdrop, List.head?_cons]
  have hj : (extended.points.take j).length = j := by
    rw [List.length_take, Nat.min_eq_left]
    by_contra hlt
    have hmem := h.upper.first_mem
    rw [List.drop_eq_nil_of_le (by omega)] at hmem
    cases hmem
  have hsplit : extended.points = extended.points.take j ++ extended.points.drop j ++ [] := by
    rw [List.append_nil, List.take_append_drop]
  obtain ⟨E, hne, hE, hend, hconcave, hcovers⟩ := hullEnd_spec hdrops h.upper.concave (fun d hd => hU d (h.upper.sub hd))
    (List.ne_nil_of_mem h.upper.first_mem) hsplit
  obtain ⟨F, hF⟩ := hE
  have hsize : extended.size = (extended.points.take j).length + (extended.points.drop j).length := by
    rw [← List.length_append, List.take_append_drop, Hull.points, List.length_map, Hull.size]
  have hpushed : ((extended.resize (j + E.length)).push x y).points = extended.points.take j ++ (E ++ [p]) := by
    rw [Hull.points_push, Hull.points_resize, hp, ← List.append_assoc]
    congr 1
    rw [List.take_add, ← hF, List.take_left]
  rw [hj] at hend hsize
  refine ⟨s, i + A.length, (extended.resize (j + E.length)).push x y, ?_, rfl, ?_⟩
  · simp only [narrow, hfirst, hrest', hk, hextreme, hsize, hend, Option.bind_eq_bind, Option.bind_some]
    rfl
  · rw [hpushed, List.drop_left' hj, hdrop]
    rw [hrest, heq] at h
    rw [heq] at htouch
    refine h.narrow (fun u hu => (hU u hu).le) hs hleast hgreatest htouch ?_
    refine ⟨fun d hd => ?_, ?_, List.getLast?_append, hconcave, fun f _ _ hf => ?_⟩
    · rcases List.mem_append.mp hd with hd | hd
      · exact List.mem_cons_of_mem p (hF ▸ List.mem_append_left F hd)
      · exact List.mem_singleton.mp hd ▸ List.mem_cons_self
    · have hhead := h.upper.head
      rw [← hF, List.head?_append_of_ne_nil _ hne] at hhead
      rw [List.head?_append_of_ne_nil _ hne, hhead]
    · exact List.forall_mem_cons.mpr ⟨hf p (List.mem_append_right E List.mem_cons_self), hcovers f hf⟩

end LearnedIndex.PiecewiseLinear
