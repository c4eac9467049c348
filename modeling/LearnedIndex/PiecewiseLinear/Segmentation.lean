import LearnedIndex.Greedy
import LearnedIndex.PiecewiseLinear.Segment

/-! `make_segmentation` cuts its input into as few segments as the error allows. -/

namespace LearnedIndex.PiecewiseLinear

open OptimalPiecewiseLinearModel

variable {ε n a b c : Nat} {input : Nat → StoredPoint} {pts pts' : List StoredPoint} {o : Output} {out : List Output}

theorem Approximable.mono (h : Approximable ε pts) (hsub : pts' ⊆ pts) : Approximable ε pts' := by
  obtain ⟨f, hf⟩ := h
  exact ⟨f, fun p hp => hf p (hsub hp)⟩

/-- The states that calls of `add_point` with rising `x` lead to, with the points since the last
rejection, the newest first. -/
inductive Reached (ε : Nat) : OptimalPiecewiseLinearModel → List StoredPoint → Prop
  | make : Reached ε (make ε) []
  | accepted {m m' : OptimalPiecewiseLinearModel} {pts : List StoredPoint} {p : StoredPoint} (h : Reached ε m pts)
      (hx : ∀ q ∈ pts, q.x < p.x) (hadd : m.addPoint p.x p.y = some (m', true)) : Reached ε m' (p :: pts)
  | rejected {m m' : OptimalPiecewiseLinearModel} {pts : List StoredPoint} {p : StoredPoint} (h : Reached ε m pts)
      (hx : ∀ q ∈ pts, q.x < p.x) (hadd : m.addPoint p.x p.y = some (m', false)) : Reached ε m' []

theorem Reached.holds {m : OptimalPiecewiseLinearModel} (h : Reached ε m pts) : m.error = ε ∧ m.Holds pts := by
  induction h with
  | make => exact ⟨rfl, make_holds ε⟩
  | accepted h hx hadd ih =>
    obtain ⟨r, hr, herror, hadded⟩ := addPoint_spec ih.2 hx
    cases hadd.symm.trans hr
    exact ⟨herror.trans ih.1, hadded⟩
  | rejected h hx hadd ih =>
    obtain ⟨r, hr, herror, hadded⟩ := addPoint_spec ih.2 hx
    cases hadd.symm.trans hr
    exact ⟨herror.trans ih.1, hadded.1⟩

/-- Of inputs with the same `x` only the first is a point. -/
def isFirst (input : Nat → StoredPoint) (i : Nat) : Bool := decide (i = 0 ∨ (input i).x ≠ (input (i - 1)).x)

/-- The points of a range of inputs. -/
def pointsBetween (input : Nat → StoredPoint) (a b : Nat) : List StoredPoint :=
  ((List.range' a (b - a)).filter (isFirst input)).map input

@[simp] theorem pointsBetween_self : pointsBetween input a a = [] := by simp [pointsBetween]

theorem pointsBetween_succ (h : a ≤ b) :
    pointsBetween input a (b + 1) = pointsBetween input a b ++ if isFirst input b = true then [input b] else [] := by
  have hlen : b + 1 - a = b - a + 1 := by omega
  have hlast : a + 1 * (b - a) = b := by omega
  rw [pointsBetween, pointsBetween, hlen, List.range'_concat, hlast, List.filter_append, List.map_append,
    List.filter_singleton]
  cases isFirst input b <;> rfl

theorem pointsBetween_append (hab : a ≤ b) (hbc : b ≤ c) :
    pointsBetween input a b ++ pointsBetween input b c = pointsBetween input a c := by
  induction c, hbc using Nat.le_induction with
  | base => simp
  | succ c hbc ih => rw [pointsBetween_succ hbc, pointsBetween_succ (hab.trans hbc), ← List.append_assoc, ih]

theorem mem_pointsBetween {p : StoredPoint} :
    p ∈ pointsBetween input a b ↔ ∃ i, a ≤ i ∧ i < b ∧ isFirst input i = true ∧ input i = p := by
  simp only [pointsBetween, List.mem_map, List.mem_filter, List.mem_range'_1]
  constructor
  · rintro ⟨i, ⟨⟨ha, hb⟩, hfirst⟩, hp⟩
    exact ⟨i, ha, by omega, hfirst, hp⟩
  · rintro ⟨i, ha, hb, hfirst, hp⟩
    exact ⟨i, ⟨⟨ha, by omega⟩, hfirst⟩, hp⟩

theorem head_pointsBetween (hab : a < b) (hfirst : isFirst input a = true) :
    (pointsBetween input a b).head? = some (input a) := by
  have hlen : b - a = b - a - 1 + 1 := by omega
  rw [pointsBetween, hlen, List.range'_succ, List.filter_cons_of_pos hfirst]
  rfl

/-- The inputs do not go back. -/
def Ascending (input : Nat → StoredPoint) (n : Nat) : Prop := ∀ i j, i ≤ j → j < n → (input i).x ≤ (input j).x

theorem Ascending.lt_of_isFirst (h : Ascending input n) (hbn : b < n) (hfirst : isFirst input b = true) :
    ∀ p ∈ pointsBetween input a b, p.x < (input b).x := by
  intro p hp
  obtain ⟨i, -, hib, -, rfl⟩ := mem_pointsBetween.mp hp
  have hne : (input b).x ≠ (input (b - 1)).x := by
    rcases of_decide_eq_true hfirst with h0 | hne
    · omega
    · exact hne
  exact (h i (b - 1) (by omega) (by omega)).trans_lt (lt_of_le_of_ne (h (b - 1) b (by omega) hbn) hne.symm)

namespace Output

/-- The points that a segment is for. -/
def points (input : Nat → StoredPoint) (o : Output) : List StoredPoint := pointsBetween input o.start o.last

/-- The segment was made from the points of its range. -/
structure Made (input : Nat → StoredPoint) (ε : Nat) (o : Output) : Prop where
  start_lt : o.start < o.last
  first : isFirst input o.start = true
  segment : ∃ m : OptimalPiecewiseLinearModel, m.error = ε ∧ m.Holds (o.points input).reverse ∧ o.segment = m.getSegment

/-- The ranges of the segments follow each other from `a` to `b`. -/
def Tiles : List Output → Nat → Nat → Prop
  | [], a, b => a = b
  | o :: out, a, b => o.start = a ∧ Tiles out o.last b

theorem Tiles.append {out' : List Output} (h : Tiles out a b) (h' : Tiles out' b c) : Tiles (out ++ out') a c := by
  induction out generalizing a with
  | nil =>
    obtain rfl : a = b := h
    exact h'
  | cons o out ih => exact ⟨h.1, ih h.2⟩

theorem Tiles.le (h : Tiles out a b) (hlt : ∀ o ∈ out, o.start < o.last) : a ≤ b := by
  induction out generalizing a with
  | nil => exact (show a = b from h).le
  | cons o out ih =>
    have ho := hlt o List.mem_cons_self
    have hrest := ih h.2 fun o ho => hlt o (List.mem_cons_of_mem _ ho)
    have hstart := h.1
    omega

theorem Tiles.flatten (h : Tiles out a b) (hlt : ∀ o ∈ out, o.start < o.last) :
    (out.map (points input)).flatten = pointsBetween input a b := by
  induction out generalizing a with
  | nil =>
    obtain rfl : a = b := h
    simp
  | cons o out ih =>
    have hlt' : ∀ o ∈ out, o.start < o.last := fun o ho => hlt o (List.mem_cons_of_mem _ ho)
    obtain ⟨rfl, hrest⟩ := h
    rw [List.map_cons, List.flatten_cons, ih hrest hlt', points]
    exact pointsBetween_append (hlt o List.mem_cons_self).le (hrest.le hlt')

theorem Made.head (h : Made input ε o) : (o.points input).head? = some (input o.start) :=
  head_pointsBetween h.start_lt h.first

/-- The points of a segment from the newest to the oldest. -/
theorem Made.points_eq (h : o.Made input ε) : ∃ p pts, (o.points input).reverse = p :: pts := by
  cases hpts : (o.points input).reverse with
  | nil =>
    have hhead := h.head
    rw [List.reverse_eq_nil_iff.mp hpts] at hhead
    cases hhead
  | cons p pts => exact ⟨p, pts, rfl⟩

theorem Made.firstX (h : Made input ε o) : o.segment.getFirstX = (input o.start).x := by
  obtain ⟨m, -, hm, hseg⟩ := h.segment
  have hhead := h.head
  rw [← List.getLast?_reverse] at hhead
  rw [hseg, ← hm.firstX _ hhead, CanonicalSegment.getFirstX, getSegment]
  split <;> rfl

theorem Made.line_within (h : Made input ε o) (origin : Int) : Within ε (o.segment.line origin) (o.points input) := by
  obtain ⟨m, rfl, hm, hseg⟩ := h.segment
  rw [hseg]
  exact fun p hp => hm.line_within origin p (List.mem_reverse.mpr hp)

theorem Made.approximable (h : Made input ε o) : Approximable ε (o.points input) := ⟨_, h.line_within 0⟩

end Output

namespace Segmentation

open Output

/-- What holds between two rounds: segments up to `start`, each as long as possible, and the
points from there to `i` in the hulls. -/
structure Inv (input : Nat → StoredPoint) (n ε : Nat) (s : Segmentation) : Prop where
  start_le : s.start ≤ s.i
  start_lt : s.start < n
  pos : 0 < s.i
  le : s.i ≤ n
  count : s.c = s.out.length
  tiles : Tiles s.out 0 s.start
  made : ∀ o ∈ s.out, Made input ε o
  error : s.opt.error = ε
  holds : s.opt.Holds (pointsBetween input s.start s.i).reverse
  first : isFirst input s.start = true
  lastX : s.start < s.i → s.p.x = (input (s.i - 1)).x
  full : Greedy.Full (Approximable ε) (s.out.map (points input))
  stuck : ∀ o ∈ s.out.getLast?, ¬ Approximable ε (o.points input ++ [input s.start])

variable {s : Segmentation}

theorem Inv.full_append (h : s.Inv input n ε) (ho : o.start = s.start) (hlt : s.start < o.last) :
    Greedy.Full (Approximable ε) ((s.out ++ [o]).map (points input)) := by
  rw [List.map_append, Greedy.Full, List.isChain_append]
  refine ⟨h.full, List.isChain_singleton _, ?_⟩
  intro piece hpiece next hnext a ha
  rw [List.getLast?_map, Option.mem_map] at hpiece
  obtain ⟨o', ho', rfl⟩ := hpiece
  obtain rfl : o.points input = next := by simpa using hnext
  rw [points, head_pointsBetween (ho ▸ hlt) (ho ▸ h.first), ho] at ha
  cases ha
  exact h.stuck o' ho'

theorem round_spec (hinput : Ascending input n) (h : s.Inv input n ε) (hi : s.i < n) :
    Returns (s.round input) fun s' => s'.Inv input n ε ∧
      2 * (n - s'.i) + (if s'.start < s'.i then 1 else 0) < 2 * (n - s.i) + (if s.start < s.i then 1 else 0) := by
  rw [round]
  dsimp only
  split
  · next hskip =>
    have hlt : s.start < s.i := lt_of_le_of_ne h.start_le hskip.1.symm
    have hsame : (input s.i).x = (input (s.i - 1)).x := hskip.2.trans (h.lastX hlt)
    have hfirst : isFirst input s.i = false := by
      have hpos := h.pos
      simp only [isFirst, hsame, ne_eq, not_true, or_false, decide_eq_false_iff_not]
      omega
    refine Returns.some_iff.mpr ⟨⟨h.start_le.trans (Nat.le_succ _), h.start_lt, Nat.succ_pos _, hi, h.count, h.tiles, h.made, h.error,
      ?_, h.first, fun _ => hskip.2.symm, h.full, h.stuck⟩, ?_⟩
    · rw [pointsBetween_succ h.start_le, hfirst, if_neg Bool.false_ne_true, List.append_nil]
      exact h.holds
    · dsimp only
      rw [if_pos hlt, if_pos (by omega)]
      omega
  · next hskip =>
    have hfirst : isFirst input s.i = true := by
      rcases h.start_le.eq_or_lt with heq | hlt
      · rw [← heq]
        exact h.first
      · refine decide_eq_true (Or.inr fun hsame => hskip ⟨hlt.ne', ?_⟩)
        rw [hsame, h.lastX hlt]
    have hx : ∀ p ∈ (pointsBetween input s.start s.i).reverse, p.x < (input s.i).x := fun p hp =>
      hinput.lt_of_isFirst hi hfirst p (List.mem_reverse.mp hp)
    have hpoints : pointsBetween input s.start (s.i + 1) = pointsBetween input s.start s.i ++ [input s.i] := by
      rw [pointsBetween_succ h.start_le, hfirst, if_pos rfl]
    apply (addPoint_spec (y := (input s.i).y) h.holds hx).bind
    rintro ⟨opt, accepted⟩ ⟨herror, hadded⟩
    cases accepted with
    | true =>
      rw [if_pos rfl] at hadded
      refine Returns.some_iff.mpr ⟨⟨h.start_le.trans (Nat.le_succ _), h.start_lt, Nat.succ_pos _, hi, h.count, h.tiles, h.made,
        herror.trans h.error, ?_, h.first, fun _ => rfl, h.full, h.stuck⟩, ?_⟩
      · rw [hpoints, List.reverse_append]
        exact hadded
      · dsimp only
        split_ifs <;> omega
    | false =>
      rw [if_neg Bool.false_ne_true] at hadded
      obtain ⟨hholds, hseg, htwo, hnot⟩ := hadded
      have hlt : s.start < s.i := by
        refine lt_of_le_of_ne h.start_le fun heq => ?_
        rw [heq, pointsBetween_self] at htwo
        simp at htwo
      have hmade : Made input ε ⟨s.start, s.i, opt.getSegment⟩ := ⟨hlt, h.first, s.opt, h.error, h.holds, hseg⟩
      refine Returns.some_iff.mpr ⟨⟨le_rfl, hi, h.pos, h.le, ?_, ?_, ?_, herror.trans h.error, ?_, hfirst,
        fun hlt => absurd hlt (lt_irrefl _), ?_, ?_⟩, ?_⟩
      · simp [h.count]
      · exact h.tiles.append ⟨rfl, rfl⟩
      · simpa [or_imp, forall_and] using ⟨h.made, hmade⟩
      · rw [pointsBetween_self]
        exact hholds
      · exact h.full_append rfl hlt
      · intro o ho
        obtain rfl : ⟨s.start, s.i, opt.getSegment⟩ = o := by simpa using ho
        intro happrox
        have hnot' : ¬ Approximable ε (input s.i :: (pointsBetween input s.start s.i).reverse) := h.error ▸ hnot
        refine hnot' (happrox.mono fun p hp => ?_)
        simpa [points, or_comm] using hp
      · dsimp only
        rw [if_neg (lt_irrefl _), if_pos hlt]
        omega

end Segmentation

open Output Segmentation in
/-- The segments follow each other over all inputs, each one is made from the points of its
range, and none has room for one point more. -/
theorem makeSegmentation_spec (hn : 0 < n) (hinput : Ascending input n) :
    Returns (makeSegmentation n ε input) fun r => r.1 = r.2.length ∧ Tiles r.2 0 n ∧ (∀ o ∈ r.2, Made input ε o) ∧
      Greedy.Full (Approximable ε) (r.2.map (points input)) := by
  rw [makeSegmentation, if_neg hn.ne']
  have hnil : ∀ p ∈ ([] : List StoredPoint), p.x < (input 0).x := fun p hp => (by cases hp)
  apply (addPoint_spec (y := (input 0).y) (make_holds ε) hnil).bind
  rintro ⟨opt, accepted⟩ ⟨herror, hadded⟩
  have haccepted : accepted = true := by
    by_contra hne
    rw [if_neg hne] at hadded
    exact absurd hadded.2.2.1 (by simp)
  rw [if_pos haccepted] at hadded
  have hfirst : isFirst input 0 = true := rfl
  have hone : pointsBetween input 0 1 = [input 0] := rfl
  have hinv : Inv input n ε ⟨1, 0, 0, input 0, opt, []⟩ :=
    ⟨Nat.zero_le 1, hn, Nat.one_pos, hn, rfl, rfl, fun o ho => (by cases ho), herror, by rw [hone]; exact hadded, hfirst,
      fun _ => rfl, List.isChain_nil, fun o ho => (by cases ho)⟩
  have hloop : Returns (Loop.whileDo (fun s => some (decide (s.i < n))) (Segmentation.round input) ⟨1, 0, 0, input 0, opt, []⟩)
      fun s => s.Inv input n ε ∧ s.i = n := by
    apply Returns.whileDo (I := Inv input n ε) fun s => 2 * (n - s.i) + if s.start < s.i then 1 else 0
    · intro s hs
      rw [Returns.some_iff]
      split
      · next hlt => exact round_spec hinput hs (of_decide_eq_true hlt)
      · next hge =>
        rw [decide_eq_true_eq] at hge
        exact ⟨hs, le_antisymm hs.le (not_lt.mp hge)⟩
    · exact hinv
  apply hloop.bind
  rintro s ⟨hs, hi⟩
  have hmade : Made input ε ⟨s.start, n, s.opt.getSegment⟩ := ⟨hs.start_lt, hs.first, s.opt, hs.error, hi ▸ hs.holds, rfl⟩
  refine Returns.some_iff.mpr ⟨?_, hs.tiles.append ⟨rfl, rfl⟩, ?_, hs.full_append rfl hs.start_lt⟩
  · simp [hs.count]
  · simpa [or_imp, forall_and] using ⟨hs.made, hmade⟩

theorem Output.Tiles.restart_eq (h : Output.Tiles out a b) : restart a out = out := by
  induction out generalizing a with
  | nil => rfl
  | cons o out ih =>
    obtain ⟨rfl, hrest⟩ := h
    rw [restart, ih hrest]

/-- With one chunk the parallel way is the plain one. -/
theorem makeSegmentationPar_eq (hn : 0 < n) (hinput : Ascending input n) :
    makeSegmentationPar n ε input = makeSegmentation n ε input := by
  rw [makeSegmentationPar]
  split
  · rfl
  · obtain ⟨⟨count, out⟩, hmake, -, htiles, -⟩ := makeSegmentation_spec (ε := ε) hn hinput
    have hrestart : restart 0 out = out := Output.Tiles.restart_eq htiles
    rw [hmake]
    exact congrArg (fun results => some (count, results)) hrestart

/-- No way to cut the points into pieces that lines can follow takes fewer pieces. -/
theorem makeSegmentation_optimal (hinput : Ascending input n) :
    ∃ count out, makeSegmentation n ε input = some (count, out) ∧
      ∀ pieces : List (List StoredPoint), pieces.flatten = pointsBetween input 0 n →
        (∀ piece ∈ pieces, Approximable ε piece) → count ≤ pieces.length := by
  rcases Nat.eq_zero_or_pos n with rfl | hn
  · exact ⟨0, [], rfl, fun pieces _ _ => Nat.zero_le _⟩
  obtain ⟨⟨count, out⟩, hmake, hcount, htiles, hmade, hfull⟩ := makeSegmentation_spec (ε := ε) hn hinput
  obtain rfl : count = out.length := hcount
  refine ⟨out.length, out, hmake, fun pieces hflatten hpieces => ?_⟩
  have hinherit : ∀ xs ys zs, Approximable ε (xs ++ ys ++ zs) → Approximable ε ys := fun xs ys zs h =>
    h.mono fun p hp => by simp [hp]
  have hne : ∀ piece ∈ out.map (Output.points input), piece ≠ [] := by
    intro piece hpiece hnil
    obtain ⟨o, ho, rfl⟩ := List.mem_map.mp hpiece
    have hhead := (hmade o ho).head
    rw [hnil] at hhead
    cases hhead
  have hcover : pieces.flatten = (out.map (Output.points input)).flatten := by
    rw [hflatten, htiles.flatten fun o ho => (hmade o ho).start_lt]
  have hle := hfull.length_le hinherit hne hpieces hcover
  rwa [List.length_map] at hle

/-- The points `(0, 0)`, `(1, 1)`, `(4, 2)`, `(9, 3)`, … -/
def squares (i : Nat) : StoredPoint := ⟨i * i, i⟩

theorem squares_ascending (n : Nat) : Ascending squares n := fun i j hij _ => by
  simp only [squares]
  exact_mod_cast Nat.mul_le_mul hij hij

theorem makeSegmentation_optimal_squares : ∃ count out, makeSegmentation 12 1 squares = some (count, out) ∧
    ∀ pieces : List (List StoredPoint), pieces.flatten = pointsBetween squares 0 12 →
      (∀ piece ∈ pieces, Approximable 1 piece) → count ≤ pieces.length :=
  makeSegmentation_optimal (squares_ascending 12)

end LearnedIndex.PiecewiseLinear
