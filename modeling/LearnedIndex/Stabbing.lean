import Mathlib.Algebra.Order.Field.Basic
import Mathlib.Tactic.FieldSimp
import Mathlib.Tactic.Linarith
import Mathlib.Tactic.LinearCombination
import Mathlib.Tactic.Ring

/-! Lines that stab vertical segments.  The ends of the segments are points of any type with two
coordinates in an ordered field.  Between the stabbing lines with the least and the greatest
slope lie all others, and these two can be kept while segments are added from left to right. -/

universe u v

namespace LearnedIndex.Stabbing

/-- The coordinates of points. -/
structure Plane (P : Type u) (𝕜 : Type v) where
  x : P → 𝕜
  y : P → 𝕜

structure Line (𝕜 : Type v) where
  slope : 𝕜
  intercept : 𝕜

variable {P : Type u} {𝕜 : Type v} [Field 𝕜] {π : Plane P 𝕜} {f g : Line 𝕜} {a b p : P}

/-- The plane upside down. -/
def Plane.flip (π : Plane P 𝕜) : Plane P 𝕜 := ⟨π.x, fun p => -π.y p⟩

@[simp] theorem Plane.flip_x : π.flip.x = π.x := rfl
@[simp] theorem Plane.flip_y : π.flip.y p = -π.y p := rfl
@[simp] theorem Plane.flip_flip : π.flip.flip = π := by simp [Plane.flip]

namespace Line

def eval (f : Line 𝕜) (t : 𝕜) : 𝕜 := f.slope * t + f.intercept

def neg (f : Line 𝕜) : Line 𝕜 := ⟨-f.slope, -f.intercept⟩

@[simp] theorem neg_slope : f.neg.slope = -f.slope := rfl
@[simp] theorem neg_neg : f.neg.neg = f := by simp [neg]

@[simp] theorem neg_eval (t : 𝕜) : f.neg.eval t = -f.eval t := by
  simp only [eval, neg]
  ring

theorem eval_eq (f : Line 𝕜) (s t : 𝕜) : f.eval t = f.eval s + f.slope * (t - s) := by
  simp only [eval]
  ring

def through (π : Plane P 𝕜) (a b : P) : Line 𝕜 :=
  let slope := (π.y b - π.y a) / (π.x b - π.x a)
  ⟨slope, π.y a - slope * π.x a⟩

@[simp] theorem through_left : (through π a b).eval (π.x a) = π.y a := by simp [through, eval]

theorem through_right (h : π.x a ≠ π.x b) : (through π a b).eval (π.x b) = π.y b := by
  have hne : π.x b - π.x a ≠ 0 := sub_ne_zero.mpr h.symm
  simp only [through, eval]
  field_simp
  ring

theorem through_flip : through π.flip a b = (through π a b).neg := by
  simp only [through, neg, Plane.flip_x, Plane.flip_y, mk.injEq]
  constructor <;> ring

variable [LinearOrder 𝕜]

def Above (π : Plane P 𝕜) (f : Line 𝕜) (p : P) : Prop := π.y p ≤ f.eval (π.x p)
def Below (π : Plane P 𝕜) (f : Line 𝕜) (p : P) : Prop := f.eval (π.x p) ≤ π.y p

variable [IsStrictOrderedRing 𝕜]

@[simp] theorem above_flip : f.neg.Above π.flip p ↔ f.Below π p := by simp [Above, Below]
@[simp] theorem below_flip : f.neg.Below π.flip p ↔ f.Above π p := by simp [Above, Below]

/-- Whether a point is under a line, without a division. -/
theorem lt_through_iff (h : π.x a < π.x b) : π.y p < (through π a b).eval (π.x p) ↔
    (π.y p - π.y a) * (π.x b - π.x a) < (π.x p - π.x a) * (π.y b - π.y a) := by
  have hpos : 0 < π.x b - π.x a := sub_pos.mpr h
  rw [eval_eq _ (π.x a), through_left, ← sub_lt_iff_lt_add', through, div_mul_eq_mul_div, lt_div_iff₀ hpos,
    mul_comm (π.y b - π.y a)]

theorem through_lt_iff (h : π.x a < π.x b) : (through π a b).eval (π.x p) < π.y p ↔
    (π.x p - π.x a) * (π.y b - π.y a) < (π.y p - π.y a) * (π.x b - π.x a) := by
  have hpos : 0 < π.x b - π.x a := sub_pos.mpr h
  rw [eval_eq _ (π.x a), through_left, ← lt_sub_iff_add_lt', through, div_mul_eq_mul_div, div_lt_iff₀ hpos,
    mul_comm (π.y b - π.y a)]

/-- Two lines are compared at two places. -/
theorem slope_le_slope {s t : 𝕜} (hst : s < t) (hs : g.eval s ≤ f.eval s) (ht : f.eval t ≤ g.eval t) :
    f.slope ≤ g.slope := by
  rw [eval_eq f s, eval_eq g s] at ht
  have hle : f.slope * (t - s) ≤ g.slope * (t - s) := by linarith
  exact le_of_mul_le_mul_right hle (sub_pos.mpr hst)

/-- A steeper line stays above to the right. -/
theorem eval_le_right {s t : 𝕜} (hst : s ≤ t) (hslope : f.slope ≤ g.slope) (hs : f.eval s ≤ g.eval s) :
    f.eval t ≤ g.eval t := by
  rw [eval_eq f s, eval_eq g s]
  exact add_le_add hs (mul_le_mul_of_nonneg_right hslope (sub_nonneg.mpr hst))

/-- A steeper line stays below to the left. -/
theorem eval_le_left {s t : 𝕜} (hst : t ≤ s) (hslope : f.slope ≤ g.slope) (hs : g.eval s ≤ f.eval s) :
    g.eval t ≤ f.eval t := by
  rw [eval_eq f s, eval_eq g s]
  have hle := mul_le_mul_of_nonpos_right hslope (sub_nonpos.mpr hst)
  exact add_le_add hs hle

/-- A line that is below another at two places is below it in between. -/
theorem eval_le_between {s t u : 𝕜} (hst : s ≤ t) (htu : t ≤ u) (hs : f.eval s ≤ g.eval s) (hu : f.eval u ≤ g.eval u) :
    f.eval t ≤ g.eval t := by
  rcases le_total f.slope g.slope with hslope | hslope
  · exact eval_le_right hst hslope hs
  · exact eval_le_left htu hslope hu

/-- Through any point between two lines goes a line between them. -/
theorem exists_between {t v : 𝕜} (hf : f.eval t ≤ v) (hg : v ≤ g.eval t) : ∃ h : Line 𝕜, h.eval t = v ∧
    ∀ (π : Plane P 𝕜) p, (f.Above π p → g.Above π p → h.Above π p) ∧ (f.Below π p → g.Below π p → h.Below π p) := by
  rcases hf.eq_or_lt with hf' | hf'
  · exact ⟨f, hf', fun π p => ⟨fun ha _ => ha, fun hb _ => hb⟩⟩
  have hpos : 0 < g.eval t - f.eval t := by linarith
  let r := (v - f.eval t) / (g.eval t - f.eval t)
  have hr : r * (g.eval t - f.eval t) = v - f.eval t := div_mul_cancel₀ _ hpos.ne'
  have h0 : 0 ≤ r := div_nonneg (sub_nonneg.mpr hf) hpos.le
  have h1 : r ≤ 1 := (div_le_one hpos).mpr (by linarith)
  let h : Line 𝕜 := ⟨(1 - r) * f.slope + r * g.slope, (1 - r) * f.intercept + r * g.intercept⟩
  have heval : ∀ s, h.eval s = (1 - r) * f.eval s + r * g.eval s := fun s => by
    simp only [h, eval]
    ring
  refine ⟨h, ?_, fun π p => ⟨fun ha hb => ?_, fun ha hb => ?_⟩⟩
  · rw [heval]
    linear_combination hr
  · simp only [Above, heval] at ha hb ⊢
    nlinarith [mul_le_mul_of_nonneg_left ha (sub_nonneg.mpr h1), mul_le_mul_of_nonneg_left hb h0]
  · simp only [Below, heval] at ha hb ⊢
    nlinarith [mul_le_mul_of_nonneg_left ha (sub_nonneg.mpr h1), mul_le_mul_of_nonneg_left hb h0]

end Line

variable [LinearOrder 𝕜]

/-- Points from left to right that bend downwards. -/
def Concave (π : Plane P 𝕜) : List P → Prop
  | a :: b :: rest => π.x a < π.x b ∧ (∀ c ∈ rest.head?, (Line.through π b c).slope < (Line.through π a b).slope) ∧
      Concave π (b :: rest)
  | _ => True

namespace Concave

variable {xs ys : List P}

theorem pair (h : π.x a < π.x b) : Concave π [a, b] := ⟨h, fun c hc => (by cases hc), trivial⟩

theorem tail (h : Concave π (a :: xs)) : Concave π xs := by
  cases xs with
  | nil => trivial
  | cons b xs => exact h.2.2

theorem of_append (h : Concave π (xs ++ ys)) : Concave π ys := by
  induction xs with
  | nil => exact h
  | cons a xs ih => exact ih h.tail

theorem pairwise (h : Concave π xs) : xs.Pairwise fun a b => π.x a < π.x b := by
  induction xs with
  | nil => exact List.Pairwise.nil
  | cons a xs ih =>
    refine List.pairwise_cons.mpr ⟨fun c hc => ?_, ih h.tail⟩
    cases xs with
    | nil => cases hc
    | cons b xs =>
      rcases List.mem_cons.mp hc with rfl | hc
      · exact h.1
      · exact h.1.trans ((List.pairwise_cons.mp (ih h.tail)).1 c hc)

theorem of_append_left (h : Concave π (xs ++ ys)) : Concave π xs := by
  induction xs with
  | nil => trivial
  | cons a xs ih =>
    cases xs with
    | nil => trivial
    | cons b xs =>
      refine ⟨h.1, fun c hc => h.2.1 c ?_, ih h.tail⟩
      cases xs with
      | nil => cases hc
      | cons d xs => exact hc

/-- A point behind the last two that bends further down. -/
theorem concat (h : Concave π (xs ++ [a, b])) (hx : π.x b < π.x p)
    (hslope : (Line.through π b p).slope < (Line.through π a b).slope) : Concave π (xs ++ [a, b] ++ [p]) := by
  induction xs with
  | nil => exact ⟨h.1, fun c hc => by cases hc; exact hslope, pair hx⟩
  | cons c xs ih =>
    cases xs with
    | nil => exact ⟨h.1, h.2.1, ih h.tail⟩
    | cons d xs =>
      refine ⟨h.1, fun e he => h.2.1 e ?_, ih h.tail⟩
      cases xs with
      | nil => exact he
      | cons => exact he

variable [IsStrictOrderedRing 𝕜]

/-- A line that the points have begun to fall away from stays above them. -/
theorem above (h : Concave π (a :: b :: xs)) (ha : f.Above π a) (hslope : (Line.through π a b).slope ≤ f.slope) :
    ∀ c ∈ b :: xs, f.Above π c := by
  induction xs generalizing a b with
  | nil =>
    intro c hc
    rw [List.mem_singleton.mp hc, Line.Above, ← Line.through_right h.1.ne]
    refine Line.eval_le_right h.1.le hslope ?_
    rwa [Line.through_left]
  | cons c xs ih =>
    have hb : f.Above π b := by
      rw [Line.Above, ← Line.through_right h.1.ne]
      refine Line.eval_le_right h.1.le hslope ?_
      rwa [Line.through_left]
    intro d hd
    rcases List.mem_cons.mp hd with rfl | hd
    · exact hb
    · exact ih h.2.2 hb ((h.2.1 c rfl).le.trans hslope) d hd

end Concave

/-- Three points bend downwards when the second is above the line through the others. -/
theorem slope_lt_slope [IsStrictOrderedRing 𝕜] (hab : π.x a < π.x b) (hbp : π.x b < π.x p)
    (h : (Line.through π a p).eval (π.x b) < π.y b) : (Line.through π b p).slope < (Line.through π a b).slope := by
  have hlt := (Line.through_lt_iff (hab.trans hbp)).mp h
  simp only [Line.through]
  rw [div_lt_div_iff₀ (sub_pos.mpr hbp) (sub_pos.mpr hab)]
  linarith

/-- The line passes between the lower and the upper ends of the segments. -/
def Stabs (π : Plane P 𝕜) (L U : List P) (f : Line 𝕜) : Prop := (∀ p ∈ L, f.Above π p) ∧ ∀ p ∈ U, f.Below π p

theorem stabs_flip [IsStrictOrderedRing 𝕜] {L U : List P} : Stabs π.flip U L f.neg ↔ Stabs π L U f := by
  simp only [Stabs, Line.above_flip, Line.below_flip]
  exact and_comm

/-- A concave chain from `first` to `last` that stands for the lower ends of the segments, as
long as lines are neither flatter nor steeper than two slopes. -/
structure Hull (π : Plane P 𝕜) (L C : List P) (first last : P) (least greatest : 𝕜) : Prop where
  sub : C ⊆ L
  head : C.head? = some first
  getLast : C.getLast? = some last
  concave : Concave π C
  covers : ∀ f : Line 𝕜, least ≤ f.slope → f.slope ≤ greatest → (∀ c ∈ C, f.Above π c) → ∀ l ∈ L, f.Above π l

/-- The stabbing lines with the least slope, through `r0` and `r2`, and with the greatest,
through `r1` and `r3`, with the hulls on which the next ones will touch. -/
structure Extremal (π : Plane P 𝕜) (L U C D : List P) (r0 r1 r2 r3 : P) : Prop where
  least_lt : π.x r0 < π.x r2
  greatest_lt : π.x r1 < π.x r3
  least : Stabs π L U (Line.through π r0 r2)
  greatest : Stabs π L U (Line.through π r1 r3)
  lower : Hull π L C r1 r2 (Line.through π r0 r2).slope (Line.through π r1 r3).slope
  upper : Hull π.flip U D r0 r3 (-(Line.through π r1 r3).slope) (-(Line.through π r0 r2).slope)

namespace Hull

variable {L C : List P} {first last : P} {least greatest : 𝕜}

theorem first_mem (h : Hull π L C first last least greatest) : first ∈ C := List.mem_of_head? h.head

theorem last_mem (h : Hull π L C first last least greatest) : last ∈ C := List.mem_of_getLast? h.getLast

end Hull

namespace Extremal

variable [IsStrictOrderedRing 𝕜] {L U C D D' A B : List P} {r0 r1 r2 r3 s : P}

theorem flip (h : Extremal π L U C D r0 r1 r2 r3) : Extremal π.flip U L D C r1 r0 r3 r2 where
  least_lt := h.greatest_lt
  greatest_lt := h.least_lt
  least := by
    rw [Line.through_flip, stabs_flip]
    exact h.greatest
  greatest := by
    rw [Line.through_flip, stabs_flip]
    exact h.least
  lower := by
    rw [Line.through_flip, Line.through_flip]
    exact h.upper
  upper := by
    rw [Line.through_flip, Line.through_flip, Plane.flip_flip, Line.neg_slope, Line.neg_slope, neg_neg, neg_neg]
    exact h.lower

omit [IsStrictOrderedRing 𝕜] in
/-- Two segments are stabbed from an end of one to the opposite end of the other. -/
theorem two {la ua lb ub : P} (hxa : π.x la = π.x ua) (hxb : π.x lb = π.x ub) (hx : π.x ua < π.x ub)
    (ha : π.y la ≤ π.y ua) (hb : π.y lb ≤ π.y ub) :
    Extremal π [lb, la] [ub, ua] [la, lb] [ua, ub] ua la lb ub := by
  have hlb : π.x ua < π.x lb := hxb ▸ hx
  have hub : π.x la < π.x ub := hxa ▸ hx
  have hleast : Stabs π [lb, la] [ub, ua] (Line.through π ua lb) := by
    simp only [Stabs, List.forall_mem_cons, Line.Above, Line.Below, hxa, ← hxb, Line.through_left, Line.through_right hlb.ne]
    exact ⟨⟨le_rfl, ha, fun _ h => nomatch h⟩, hb, le_rfl, fun _ h => nomatch h⟩
  have hgreatest : Stabs π [lb, la] [ub, ua] (Line.through π la ub) := by
    simp only [Stabs, List.forall_mem_cons, Line.Above, Line.Below, ← hxa, hxb, Line.through_left, Line.through_right hub.ne]
    exact ⟨⟨hb, le_rfl, fun _ h => nomatch h⟩, le_rfl, ha, fun _ h => nomatch h⟩
  have hlower : [la, lb] ⊆ [lb, la] ∧ [lb, la] ⊆ [la, lb] := by simp
  have hupper : [ua, ub] ⊆ [ub, ua] ∧ [ub, ua] ⊆ [ua, ub] := by simp
  exact
    { least_lt := hlb
      greatest_lt := hub
      least := hleast
      greatest := hgreatest
      lower := ⟨hlower.1, rfl, rfl, Concave.pair (hxa.trans_lt hlb),
        fun f _ _ hf l hl => hf l (hlower.2 hl)⟩
      upper := ⟨hupper.1, rfl, rfl, Concave.pair hx,
        fun f _ _ hf l hl => hf l (hupper.2 hl)⟩ }

theorem least_slope_le (h : Extremal π L U C D r0 r1 r2 r3) (hf : Stabs π L U f) :
    (Line.through π r0 r2).slope ≤ f.slope := by
  apply Line.slope_le_slope h.least_lt
  · rw [Line.through_left]
    exact hf.2 r0 (h.upper.sub h.upper.first_mem)
  · rw [Line.through_right h.least_lt.ne]
    exact hf.1 r2 (h.lower.sub h.lower.last_mem)

theorem least_eval_le (h : Extremal π L U C D r0 r1 r2 r3) {t : 𝕜} (ht : π.x r2 ≤ t)
    (hslope : (Line.through π r0 r2).slope ≤ f.slope) (hlast : f.Above π r2) :
    (Line.through π r0 r2).eval t ≤ f.eval t := by
  apply Line.eval_le_right ht hslope
  rw [Line.through_right h.least_lt.ne]
  exact hlast

theorem le_greatest_eval (h : Extremal π L U C D r0 r1 r2 r3) {t : 𝕜} (ht : π.x r3 ≤ t)
    (hslope : f.slope ≤ (Line.through π r1 r3).slope) (hlast : f.Below π r3) :
    f.eval t ≤ (Line.through π r1 r3).eval t := by
  have hle := h.flip.least_eval_le (f := f.neg) ht (by simpa [Line.through_flip] using hslope) (Line.above_flip.mpr hlast)
  rw [Line.through_flip, Line.neg_eval, Line.neg_eval] at hle
  exact neg_le_neg_iff.mp hle

/-- An upper end under the least line can not be passed below. -/
theorem not_stabs (h : Extremal π L U C D r0 r1 r2 r3) (hr2 : π.x r2 ≤ π.x p)
    (hp : π.y p < (Line.through π r0 r2).eval (π.x p)) : ¬ Stabs π L (p :: U) f := by
  intro hf
  have hf' : Stabs π L U f := ⟨hf.1, fun u hu => hf.2 u (List.mem_cons_of_mem p hu)⟩
  have hle := h.least_eval_le hr2 (h.least_slope_le hf') (hf'.1 r2 (h.lower.sub h.lower.last_mem))
  exact absurd (hle.trans (hf.2 p List.mem_cons_self)) hp.not_ge

/-- Segments of no length fix the line. -/
theorem greatest_le_least (h : Extremal π L L C D r0 r1 r2 r3) {t : 𝕜} (ht : π.x r0 ≤ t) :
    (Line.through π r1 r3).eval t ≤ (Line.through π r0 r2).eval t := by
  have h0 := h.upper.sub h.upper.first_mem
  have h2 := h.lower.sub h.lower.last_mem
  apply Line.eval_le_right ht
  · exact Line.slope_le_slope h.least_lt ((h.least.2 r0 h0).trans (h.greatest.1 r0 h0))
      ((h.greatest.2 r2 h2).trans (h.least.1 r2 h2))
  · exact (h.greatest.2 r0 h0).trans (h.least.1 r0 h0)

/-- An upper end on or above the greatest line changes nothing. -/
theorem skip (h : Extremal π L U C D r0 r1 r2 r3) (hr2 : π.x r2 ≤ π.x p) (hr3 : π.x r3 ≤ π.x p)
    (hp : (Line.through π r1 r3).eval (π.x p) ≤ π.y p) : Extremal π L (p :: U) C D r0 r1 r2 r3 where
  least_lt := h.least_lt
  greatest_lt := h.greatest_lt
  least := by
    refine ⟨h.least.1, List.forall_mem_cons.mpr ⟨?_, h.least.2⟩⟩
    exact (h.least_eval_le hr2 (h.least_slope_le h.greatest) (h.greatest.1 r2 (h.lower.sub h.lower.last_mem))).trans hp
  greatest := ⟨h.greatest.1, List.forall_mem_cons.mpr ⟨hp, h.greatest.2⟩⟩
  lower := h.lower
  upper :=
    { h.upper with
      sub := fun d hd => List.mem_cons_of_mem p (h.upper.sub hd)
      covers := fun f hleast hgreatest hf => by
        refine List.forall_mem_cons.mpr ⟨?_, h.upper.covers f hleast hgreatest hf⟩
        -- Lines no steeper than the greatest one, and below its right end, are below it from there on.
        have hf3 : f.neg.Below π r3 := by
          rw [← Line.above_flip, Line.neg_neg]
          exact hf r3 h.upper.last_mem
        have hle := h.le_greatest_eval hr3 (neg_le.mp hleast) hf3
        rw [← Line.neg_neg (f := f), Line.above_flip]
        exact hle.trans hp }

/-- An upper end below the greatest line takes its place: the new line touches the lower hull
in `s`, what is left of `s` is not needed any more, and the upper hull now ends in the new point. -/
theorem narrow (h : Extremal π L U (A ++ s :: B) D r0 r1 r2 r3) (hU : ∀ u ∈ U, π.x u ≤ π.x p)
    (hs : π.x s < π.x p) (hleast : (Line.through π r0 r2).eval (π.x p) ≤ π.y p)
    (hgreatest : π.y p < (Line.through π r1 r3).eval (π.x p))
    (htouch : ∀ c ∈ A ++ s :: B, (Line.through π s p).Above π c)
    (hupper : Hull π.flip (p :: D) D' r0 p (-(Line.through π r1 r3).slope) (-(Line.through π r0 r2).slope)) :
    Extremal π L (p :: U) (s :: B) D' r0 s r2 p := by
  have hp : (Line.through π s p).eval (π.x p) = π.y p := Line.through_right hs.ne
  have hsmem : s ∈ A ++ s :: B := List.mem_append_right A List.mem_cons_self
  have hr1 : π.x r1 < π.x p := h.greatest_lt.trans_le (hU r3 (h.upper.sub h.upper.last_mem))
  have hle : (Line.through π s p).slope ≤ (Line.through π r1 r3).slope := by
    apply Line.slope_le_slope hr1
    · rw [Line.through_left]
      exact htouch r1 h.lower.first_mem
    · rw [hp]
      exact hgreatest.le
  have hge : (Line.through π r0 r2).slope ≤ (Line.through π s p).slope := by
    apply Line.slope_le_slope hs
    · rw [Line.through_left]
      exact h.least.1 s (h.lower.sub hsmem)
    · rw [hp]
      exact hleast
  have hbelow : ∀ u ∈ U, (Line.through π s p).Below π u := by
    -- Some line goes through the new point and stabs what is there; it is no steeper.
    obtain ⟨f, hfp, hbetween⟩ := Line.exists_between hleast hgreatest.le
    have hflat : f.slope ≤ (Line.through π s p).slope := by
      apply Line.slope_le_slope hs
      · rw [Line.through_left]
        exact (hbetween π s).1 (h.least.1 s (h.lower.sub hsmem)) (h.greatest.1 s (h.lower.sub hsmem))
      · rw [hfp, hp]
    intro u hu
    refine (Line.eval_le_left (hU u hu) hflat ?_).trans ((hbetween π u).2 (h.least.2 u hu) (h.greatest.2 u hu))
    rw [hfp, hp]
  exact
    { least_lt := h.least_lt
      greatest_lt := hs
      least := ⟨h.least.1, List.forall_mem_cons.mpr ⟨hleast, h.least.2⟩⟩
      greatest := ⟨h.lower.covers _ hge hle htouch, List.forall_mem_cons.mpr ⟨hp.le, hbelow⟩⟩
      lower :=
        { sub := fun c hc => h.lower.sub (List.mem_append_right A hc)
          head := rfl
          getLast := by
            have hlast := h.lower.getLast
            rwa [List.getLast?_append_of_ne_nil A (List.cons_ne_nil s B)] at hlast
          concave := h.lower.concave.of_append
          covers := fun f hf hf' habove => by
            apply h.lower.covers f hf (hf'.trans hle)
            intro c hc
            rcases List.mem_append.mp hc with hc' | hc'
            · have hcs : π.x c < π.x s := (List.pairwise_append.mp h.lower.concave.pairwise).2.2 c hc' s List.mem_cons_self
              refine (htouch c hc).trans (Line.eval_le_left hcs.le hf' ?_)
              rw [Line.through_left]
              exact habove s List.mem_cons_self
            · exact habove c hc' }
      upper :=
        { sub := fun d hd => List.cons_subset_cons p h.upper.sub (hupper.sub hd)
          head := hupper.head
          getLast := hupper.getLast
          concave := hupper.concave
          covers := fun f hf hf' habove => by
            have hcovered := hupper.covers f ((neg_le_neg hle).trans hf) hf' habove
            refine List.forall_mem_cons.mpr ⟨hcovered p List.mem_cons_self, ?_⟩
            exact h.upper.covers f ((neg_le_neg hle).trans hf) hf' fun d hd => hcovered d (List.mem_cons_of_mem p hd) } }

end Extremal

end LearnedIndex.Stabbing
