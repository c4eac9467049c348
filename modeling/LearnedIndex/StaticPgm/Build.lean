import LearnedIndex.StaticPgm.Level
import Mathlib.Data.List.GetD

/-! The constructor: each level has a segment for every key, and the segment's position is close
to the segment for that key one level further down. -/

namespace LearnedIndex.StaticPgm

open PiecewiseLinear PGMIndex

variable {w firstKey last m ε n offset size q j p : Nat} {input : Nat → StoredPoint} {s next : Segment}
  {segments segs level : List Segment}

/-- In the level from `offset` on segment `j` is the last one that does not begin behind the
key, and `p` is the position that it gives. -/
structure Found (w : Nat) (segments : List Segment) (offset size q j p : Nat) : Prop where
  lt : j < size
  keys : ∀ i < size, ∃ s, segments[offset + i]? = some s ∧ (s.key ≤ q ↔ i ≤ j)
  position : ∃ s next, segments[offset + j]? = some s ∧ segments[offset + j + 1]? = some next ∧
    p = min (s.approximate w q) (toSize next.intercept)

theorem getElem?_append_of_some {i : Nat} (h : segments[i]? = some s) (more : List Segment) : (segments ++ more)[i]? = some s := by
  rw [List.getElem?_append_left (List.getElem?_eq_some_iff.mp h).1, h]

theorem Found.append (h : Found w segments offset size q j p) (more : List Segment) :
    Found w (segments ++ more) offset size q j p where
  lt := h.lt
  keys i hi := by
    obtain ⟨s, hs, hkey⟩ := h.keys i hi
    exact ⟨s, getElem?_append_of_some hs more, hkey⟩
  position := by
    obtain ⟨s, next, hs, hnext, hp⟩ := h.position
    exact ⟨s, next, getElem?_append_of_some hs more, getElem?_append_of_some hnext more, hp⟩

/-- The keys of a level rise; only behind the last key of the data two of them may be equal. -/
structure Keys (firstKey last : Nat) (level : List Segment) : Prop where
  first : ∀ s ∈ level.head?, s.key = firstKey
  le : ∀ s ∈ level, s.key ≤ last + 1
  pairwise : level.Pairwise fun s t => s.key ≤ t.key ∧ (s.key ≤ last → s.key < t.key)

theorem Keys.getElem_zero (h : Keys firstKey last level) (hpos : 0 < level.length) : level[0].key = firstKey :=
  h.first level[0] (by rw [List.head?_eq_getElem?, List.getElem?_eq_getElem hpos]; rfl)

theorem Keys.getElem_le (h : Keys firstKey last level) {i k : Nat} (hik : i ≤ k) (hk : k < level.length) :
    level[i].key ≤ level[k].key := by
  rcases hik.eq_or_lt with rfl | hlt
  · exact le_rfl
  · exact (List.pairwise_iff_getElem.mp h.pairwise i k _ hk hlt).1

theorem getElem?_level (segments level : List Segment) (pad : Segment) (i : Nat) :
    (segments ++ level ++ [pad])[segments.length + i]? = (level ++ [pad])[i]? := by
  rw [List.append_assoc, List.getElem?_append_right (Nat.le_add_right _ _), Nat.add_sub_cancel_left]

/-- The keys around a segment settle how all keys of the level compare. -/
theorem Keys.found (h : Keys firstKey last level) {pad t t' : Segment} (hj : j < level.length)
    (ht : (level ++ [pad])[j]? = some t) (ht' : (level ++ [pad])[j + 1]? = some t') (hkt : t.key ≤ q) (hkt' : q < t'.key)
    (hp : p = min (t.approximate w q) (toSize t'.intercept)) :
    Found w (segments ++ level ++ [pad]) segments.length level.length q j p := by
  refine ⟨hj, fun i hi => ⟨level[i], ?_, ?_⟩, t, t', ?_, ?_, hp⟩
  · rw [getElem?_level, List.getElem?_append_left hi, List.getElem?_eq_getElem hi]
  · rw [List.getElem?_append_left hj, List.getElem?_eq_getElem hj, Option.some.injEq] at ht
    constructor
    · intro hiq
      by_contra hij
      have hj' : j + 1 < level.length := by omega
      rw [List.getElem?_append_left hj', List.getElem?_eq_getElem hj', Option.some.injEq] at ht'
      have hle := h.getElem_le (i := j + 1) (k := i) (by omega) hi
      rw [ht'] at hle
      omega
    · intro hij
      have hle := h.getElem_le hij hj
      rw [ht] at hle
      exact hle.trans hkt
  · rw [getElem?_level, ht]
  · rw [Nat.add_assoc, getElem?_level, ht']

theorem inFunRec_x (more : List Segment) {i : Nat} (hi : i < level.length) :
    (inFunRec (segments ++ level ++ more) segments.length i).x = level[i].key := by
  rw [inFunRec, List.append_assoc, List.getElem?_append_right (Nat.le_add_right _ _), Nat.add_sub_cancel_left,
    List.getElem?_append_left hi, List.getElem?_eq_getElem hi]
  rfl

/-- Whatever segment of a level is taken, the next one is there and cuts its position off. -/
structure Sane (segments : List Segment) (offset size m : Nat) : Prop where
  pos : 0 < size
  ascending : ∀ i k, i ≤ k → k < size → ∃ s t, segments[offset + i]? = some s ∧ segments[offset + k]? = some t ∧ s.key ≤ t.key
  next : ∀ i < size, ∃ next, segments[offset + i + 1]? = some next ∧ toSize next.intercept ≤ m

theorem Sane.append (h : Sane segments offset size m) (more : List Segment) : Sane (segments ++ more) offset size m where
  pos := h.pos
  ascending i k hik hk := by
    obtain ⟨s, t, hs, ht, hle⟩ := h.ascending i k hik hk
    exact ⟨s, t, getElem?_append_of_some hs more, getElem?_append_of_some ht more, hle⟩
  next i hi := by
    obtain ⟨next, hnext, hle⟩ := h.next i hi
    exact ⟨next, getElem?_append_of_some hnext more, hle⟩

theorem Keys.sane (h : Keys firstKey last level) (hpos : 0 < level.length) {pad : Segment}
    (hnext : ∀ t ∈ (level ++ [pad]).tail, toSize t.intercept ≤ m) :
    Sane (segments ++ level ++ [pad]) segments.length level.length m := by
  refine ⟨hpos, fun i k hik hk => ?_, fun i hi => ?_⟩
  · refine ⟨level[i], level[k], ?_, ?_, h.getElem_le hik hk⟩
    · rw [getElem?_level, List.getElem?_append_left (hik.trans_lt hk), List.getElem?_eq_getElem]
    · rw [getElem?_level, List.getElem?_append_left hk, List.getElem?_eq_getElem]
  · have hlt : i < (level ++ [pad]).tail.length := by simpa using hi
    refine ⟨(level ++ [pad]).tail[i], ?_, hnext _ (List.getElem_mem hlt)⟩
    rw [Nat.add_assoc, getElem?_level, List.getElem_tail, List.getElem?_eq_getElem]

/-- The keys of a level are the points of the one above it. -/
theorem Keys.points (h : Keys firstKey last level) (hpos : 0 < level.length) (more : List Segment) :
    Points firstKey last level.length (inFunRec (segments ++ level ++ more) segments.length) where
  ascending i k hik hk := by
    rw [inFunRec_x more (hik.trans_lt hk), inFunRec_x more hk]
    exact Int.ofNat_le.mpr (h.getElem_le hik hk)
  first := by
    rw [inFunRec_x more hpos, h.getElem_zero hpos]
  le i hi := by
    rw [inFunRec_x more hi]
    exact_mod_cast h.le _ (List.getElem_mem hi)
  y_eq i _ := rfl

theorem Keys.isFirst (h : Keys firstKey last level) {i : Nat} (hi : i < level.length)
    (hprev : ∀ _ : 0 < i, level[i - 1].key ≤ last) (more : List Segment) :
    isFirst (inFunRec (segments ++ level ++ more) segments.length) i = true := by
  refine decide_eq_true (or_iff_not_imp_left.mpr fun hne => ?_)
  rw [inFunRec_x more hi, inFunRec_x more (by omega)]
  have hlt := (List.pairwise_iff_getElem.mp h.pairwise (i - 1) i (by omega) hi (by omega)).2 (hprev (by omega))
  exact_mod_cast hlt.ne'

/-- The segment that `back_check` adds for the keys behind the data. -/
def afterLast (w last lastN : Nat) (back : Segment) : List Segment :=
  if back.slope = 0 then [⟨(last + 1) % 2 ^ w, 0, lastN⟩] else []

theorem afterLast_length_le (w last lastN : Nat) (back : Segment) : (afterLast w last lastN back).length ≤ 1 := by
  rw [afterLast]
  split <;> simp

theorem backCheck_eq {back : Segment} (h : segments.getLast? = some back) (lastN nSegments : Nat) :
    backCheck w last lastN segments nSegments = some (segments ++ afterLast w last lastN back ++ [Segment.padding w lastN],
      nSegments + (afterLast w last lastN back).length) := by
  rw [backCheck, h]
  simp only [Option.bind_eq_bind, Option.bind_some, afterLast]
  split <;> simp

theorem mod_of_lt_maxKey (hlast : last < maxKey w) : (last + 1) % 2 ^ w = last + 1 := by
  unfold maxKey at hlast
  exact Nat.mod_eq_of_lt (by omega)

theorem padding_intercept (h : n < 2 ^ 31) : (Segment.padding w n).intercept = n := by
  simp only [Segment.padding]
  rw [Int.bmod_eq_of_le] <;> omega

/-- What is behind the segments of a level begins behind the data and points to its end. -/
theorem tail_spec (hlast : last < maxKey w) (hsize : n < 2 ^ 31) (back : Segment) :
    ∃ next more, afterLast w last n back ++ [Segment.padding w n] = next :: more ∧ last < next.key ∧
      ∀ t ∈ next :: more, t.intercept = n := by
  rw [afterLast]
  split
  · exact ⟨_, _, rfl, by simp [mod_of_lt_maxKey hlast], by simpa using padding_intercept hsize⟩
  · exact ⟨_, _, rfl, hlast, by simpa using padding_intercept hsize⟩

/-- All but the first segment of a level point into the level below. -/
theorem Tiled.toSize_le (hlast : last < maxKey w) (hsize : m < 2 ^ 31) (h : Tiled w ε input (s :: segs) a m) (back : Segment) :
    ∀ t ∈ segs ++ (afterLast w last m back ++ [Segment.padding w m]), toSize t.intercept ≤ m := by
  obtain ⟨next, more, htail, -, hintercept⟩ := tail_spec hlast hsize back
  intro t ht
  have ht' : 0 ≤ t.intercept ∧ t.intercept ≤ m := by
    rcases List.mem_append.mp ht with ht | ht
    · have hbounds := h.intercept t ht
      omega
    · have heq := hintercept t (htail ▸ ht)
      omega
  rw [toSize_of_nonneg ht'.1 (by omega)]
  omega

theorem Tiled.keys (hpts : Points firstKey last m input) (hlast : last < maxKey w) (h : Tiled w ε input (s :: segs) 0 m)
    (back : Segment) : Keys firstKey last (s :: segs ++ afterLast w last m back) := by
  have hle : ∀ t ∈ s :: segs, t.key ≤ last + 1 := h.key_le hpts
  have hafter : ∀ t ∈ afterLast w last m back, t.key = last + 1 := by
    intro t ht
    rw [afterLast] at ht
    split at ht
    · rw [List.mem_singleton.mp ht, mod_of_lt_maxKey hlast]
    · cases ht
  refine ⟨fun t ht => ?_, fun t ht => ?_, List.pairwise_append.mpr ⟨?_, ?_, fun t ht t' ht' => ?_⟩⟩
  · obtain rfl : s = t := by simpa using ht
    obtain ⟨c, hs, -⟩ := h
    exact_mod_cast hs.key_eq.trans hpts.first
  · rcases List.mem_append.mp ht with ht | ht
    · exact hle t ht
    · exact (hafter t ht).le
  · exact (h.pairwise hpts).imp fun hlt => ⟨hlt.le, fun _ => hlt⟩
  · rw [afterLast]
    split
    · exact List.pairwise_singleton _ _
    · exact .nil
  · rw [hafter t' ht']
    exact ⟨hle t ht, Nat.lt_succ_of_le⟩

/-- The segments of a level with the one behind the data are fewer than the points below. -/
theorem Tiled.length_lt (hε : 0 < ε) (h : Tiled w ε input (s :: segs) 0 m) (hm : 1 < m) (hfirst : isFirst input 1 = true)
    {back : Segment} (hback : (s :: segs).getLast? = some back) :
    (s :: segs ++ afterLast w last m back).length < m := by
  have hlength := h.length_le hε
  have hafter := afterLast_length_le w last m back
  rw [List.length_append, List.length_cons]
  rcases Nat.lt_or_ge 2 m with hgt | hle
  · omega
  · -- Two points are on one line, and it rises.
    cases segs with
    | cons s' segs => simp only [List.length_cons] at hlength; omega
    | nil =>
      obtain rfl : s = back := by simpa using hback
      obtain ⟨c, hs, hc, -⟩ := h
      obtain rfl : c = m := hc
      rw [afterLast, if_neg (hs.slope_pos 1 Nat.one_pos hm hfirst)]
      exact hm

/-- A level more: its keys rise, it is not larger than it may be, and for every key of the data
it has a segment whose position is close. -/
def Grown (w firstKey last ε : Nat) (input : Nat → StoredPoint) (b b' : Building) : Prop :=
  ∃ level pad, b' = ⟨b.segments ++ level ++ [pad], b.levelsSizes ++ [level.length],
      b.levelsOffsets ++ [b.segments.length + level.length + 1], level.length⟩ ∧
    0 < level.length ∧ Keys firstKey last level ∧ level.length ≤ b.lastN + 1 ∧
    (1 < b.lastN → isFirst input 1 = true → level.length < b.lastN) ∧
    Sane (b.segments ++ level ++ [pad]) b.segments.length level.length b.lastN ∧
    ∀ q, firstKey ≤ q → q ≤ last → ∃ j p, Found w (b.segments ++ level ++ [pad]) b.segments.length level.length q j p ∧
      Close ε input 0 b.lastN q p

theorem addLevel_spec {b : Building} (hpts : Points firstKey last b.lastN input) (hε : 0 < ε) (hpos : 0 < b.lastN)
    (hsize : b.lastN < 2 ^ 31) (hlast : last < maxKey w) (hoffset : b.levelsOffsets.getLast? = some b.segments.length) :
    Returns (addLevel w last (makeSegmentation b.lastN ε input) b) (Grown w firstKey last ε input b) := by
  rw [addLevel]
  apply (makeSegmentation_spec hpos hpts.ascending).bind
  rintro ⟨nSegments, out⟩ ⟨hcount, htiles, hmade, hfull⟩
  obtain ⟨real, hreal, hlength, htiled⟩ := hpts.tiled (w := w) hsize htiles hmade hfull
  obtain ⟨s, segs, rfl⟩ : ∃ s segs, real = s :: segs := by
    cases real with
    | nil => exact absurd (show 0 = b.lastN from htiled) hpos.ne
    | cons s segs => exact ⟨s, segs, rfl⟩
  obtain ⟨back, hback⟩ : ∃ back, (s :: segs).getLast? = some back := ⟨_, List.getLast?_eq_some_getLast (List.cons_ne_nil _ _)⟩
  have hback' : (b.segments ++ (s :: segs)).getLast? = some back := by
    rw [List.getLast?_append, hback]
    rfl
  have hn : nSegments = (s :: segs).length := hcount.trans hlength.symm
  simp only [hreal, Option.bind_eq_bind, Option.bind_some, backCheck_eq hback', hoffset, hn, ← List.length_append]
  have hkeys := htiled.keys hpts hlast back
  have htwo := htiled.length_le hε
  have hafter := afterLast_length_le w last b.lastN back
  refine ⟨_, rfl, s :: segs ++ afterLast w last b.lastN back, Segment.padding w b.lastN, ?_, ?_, hkeys, ?_, ?_, ?_, ?_⟩
  · simp
  · simp
  · rw [List.length_append, List.length_cons]
    omega
  · exact fun hlt hfirst => htiled.length_lt hε hlt hfirst hback
  · refine hkeys.sane (by simp) ?_
    rw [List.append_assoc]
    exact htiled.toSize_le hlast hsize back
  · intro q hq hql
    obtain ⟨next, more, htail, hnext, hintercept⟩ := tail_spec (w := w) hlast hsize back
    have hs : s.key ≤ q := (hkeys.first s rfl).le.trans hq
    have hqw : q < 2 ^ w := by
      unfold maxKey at hlast
      omega
    obtain ⟨j, t, t', hj, ht, ht', hkt, hkt', hclose⟩ :=
      htiled.close hpts hsize hqw (hql.trans_lt hnext) (hintercept next List.mem_cons_self) hs more
    rw [← htail, ← List.append_assoc] at ht ht'
    refine ⟨j, _, hkeys.found ?_ ht ht' hkt hkt' rfl, hclose⟩
    rw [List.length_append]
    omega

section Data

variable {data : List Nat}

theorem getD_le (hsorted : data.Pairwise (· ≤ ·)) {i k : Nat} (hik : i ≤ k) (hk : k < data.length) :
    data.getD i 0 ≤ data.getD k 0 := by
  rw [List.getD_eq_getElem _ _ (hik.trans_lt hk), List.getD_eq_getElem _ _ hk]
  rcases hik.eq_or_lt with rfl | hlt
  · exact le_rfl
  · exact List.pairwise_iff_getElem.mp hsorted i k _ hk hlt

theorem getD_lt (hkeys : ∀ k ∈ data, k < maxKey w) {i : Nat} (hi : i < data.length) : data.getD i 0 < maxKey w := by
  rw [List.getD_eq_getElem _ _ hi]
  exact hkeys _ (List.getElem_mem hi)

/-- The point of a key is at the key, or in the gap behind it. -/
theorem inFun_x (hsorted : data.Pairwise (· ≤ ·)) (hkeys : ∀ k ∈ data, k < maxKey w) {i : Nat} :
    (inFun w data i).x = data.getD i 0 ∨ 0 < i ∧ i + 1 < data.length ∧ data.getD i 0 = data.getD (i - 1) 0 ∧
      (inFun w data i).x = data.getD i 0 + 1 ∧ data.getD i 0 + 1 < data.getD (i + 1) 0 := by
  simp only [inFun]
  split
  · next h =>
    obtain ⟨hpos, hnext, hsame, hne, hgap⟩ := h
    have hle : data.getD i 0 ≤ data.getD (i + 1) 0 := getD_le hsorted (Nat.le_succ i) hnext
    have hlt := getD_lt hkeys hnext
    unfold maxKey at hlt
    rw [Nat.mod_eq_of_lt (by omega)] at hgap ⊢
    exact Or.inr ⟨hpos, hnext, hsame, by simp, by omega⟩
  · exact Or.inl rfl

theorem inFun_points (hsorted : data.Pairwise (· ≤ ·)) (hkeys : ∀ k ∈ data, k < maxKey w) :
    Points (data.getD 0 0) (data.getD (data.length - 1) 0) data.length (inFun w data) where
  ascending i k hik hk := by
    rcases hik.eq_or_lt with rfl | hlt
    · exact le_rfl
    have hle : data.getD (i + 1) 0 ≤ data.getD k 0 := getD_le hsorted hlt hk
    have hge : data.getD i 0 ≤ data.getD (i + 1) 0 := getD_le hsorted (Nat.le_succ i) (by omega)
    rcases inFun_x hsorted hkeys (i := i) with hi | ⟨-, -, -, hi, hgap⟩ <;>
      rcases inFun_x hsorted hkeys (i := k) with hk | ⟨-, -, -, hk, -⟩ <;> omega
  first := by
    rcases inFun_x hsorted hkeys (i := 0) with h | ⟨h, -⟩
    · exact h
    · exact absurd h (lt_irrefl 0)
  le i hi := by
    have hle := getD_le hsorted (i := i) (k := data.length - 1) (by omega) (by omega)
    rcases inFun_x hsorted hkeys (i := i) with h | ⟨-, -, -, h, -⟩ <;> omega
  y_eq i _ := by
    simp only [inFun]
    split <;> rfl

/-- The first of equal keys has a point of its own. -/
theorem inFun_isFirst (hsorted : data.Pairwise (· ≤ ·)) (hkeys : ∀ k ∈ data, k < maxKey w) {i : Nat}
    (hfirst : ∀ _ : 0 < i, data.getD (i - 1) 0 < data.getD i 0) :
    (inFun w data i).x = data.getD i 0 ∧ isFirst (inFun w data) i = true := by
  have hx : (inFun w data i).x = data.getD i 0 := by
    rcases inFun_x hsorted hkeys (i := i) with h | ⟨hpos, -, hsame, -⟩
    · exact h
    · exact absurd hsame (hfirst hpos).ne'
  refine ⟨hx, decide_eq_true (or_iff_not_imp_left.mpr fun hne => ?_)⟩
  have hpos : 0 < i := Nat.pos_of_ne_zero hne
  have hlt := hfirst hpos
  rw [hx]
  rcases inFun_x hsorted hkeys (i := i - 1) with h | ⟨-, -, -, h, hgap⟩
  · omega
  · rw [Nat.sub_add_cancel hpos] at hgap
    omega

end Data

/-- The way of a key through the levels: in each one the segment `j` for the key and its position
`p`, which is close to the segment on the level below and at the bottom to the key. -/
structure Route (w recursiveError : Nat) (segments : List Segment) (sizes offsets : List Nat) (q : Nat) (bottom : Nat → Prop)
    (j p : Nat → Nat) : Prop where
  found : ∀ l < sizes.length, ∃ offset size, offsets[l]? = some offset ∧ sizes[l]? = some size ∧
    Found w segments offset size q (j l) (p l)
  bottom : bottom (p 0)
  above : ∀ l, l + 1 < sizes.length → ∀ size, sizes[l]? = some size →
    j l ≤ p (l + 1) + recursiveError + 1 ∧ p (l + 1) ≤ j l + 1 + recursiveError ∧ p (l + 1) ≤ size

/-- A position that is close to the keys of a level is close to the segment for the key. -/
theorem Keys.close (h : Keys firstKey last level) {pad : Segment} {p' : Nat}
    (hfound : Found w (segments ++ level ++ [pad]) segments.length level.length q j p) (hq : q ≤ last)
    (hclose : Close ε (inFunRec (segments ++ level ++ [pad]) segments.length) 0 level.length q p') :
    j ≤ p' + ε + 1 ∧ p' ≤ j + 1 + ε ∧ p' ≤ level.length := by
  have hj := hfound.lt
  have hkey : ∀ i (hi : i < level.length), level[i].key ≤ q ↔ i ≤ j := by
    intro i hi
    obtain ⟨s, hs, hkey⟩ := hfound.keys i hi
    rw [getElem?_level, List.getElem?_append_left hi, List.getElem?_eq_getElem hi, Option.some.injEq] at hs
    rw [hs, hkey]
  have hlast : ∀ i (hi : i < level.length), i ≤ j → level[i].key ≤ last := fun i hi hij => ((hkey i hi).mpr hij).trans hq
  refine ⟨?_, ?_, hclose.le⟩
  · refine hclose.ahead j (Nat.zero_le _) hj (h.isFirst hj (fun hpos => hlast (j - 1) (by omega) (by omega)) _) ?_
    rw [inFunRec_x _ hj]
    exact_mod_cast (hkey j hj).mpr le_rfl
  · rcases Nat.lt_or_ge (j + 1) level.length with hlt | hge
    · refine hclose.behind (j + 1) (Nat.zero_le _) hlt (h.isFirst hlt (fun _ => hlast j hj le_rfl) _) ?_
      rw [inFunRec_x _ hlt]
      have hnot := (hkey (j + 1) hlt).not
      exact_mod_cast (by omega : q ≤ level[j + 1].key)
    · have hle := hclose.le
      omega

/-- A level more goes on with the way. -/
theorem Route.add {recursiveError : Nat} {sizes offsets : List Nat} {bottom : Nat → Prop} {js ps : Nat → Nat} {more : List Segment}
    (h : Route w recursiveError segments sizes offsets q bottom js ps) (hpos : 0 < sizes.length)
    (hlength : offsets.length = sizes.length + 1) (hoffset : offsets.getLast? = some segments.length) (offset' : Nat)
    (hfound : Found w (segments ++ more) segments.length size q j p)
    (habove : ∀ below, sizes.getLast? = some below → js (sizes.length - 1) ≤ p + recursiveError + 1 ∧
      p ≤ js (sizes.length - 1) + 1 + recursiveError ∧ p ≤ below) :
    Route w recursiveError (segments ++ more) (sizes ++ [size]) (offsets ++ [offset']) q bottom
      (Function.update js sizes.length j) (Function.update ps sizes.length p) := by
  have htop : offsets[sizes.length]? = some segments.length := by
    rw [List.getLast?_eq_getElem?, hlength] at hoffset
    exact hoffset
  refine ⟨fun l hl => ?_, ?_, fun l hl size' hsize' => ?_⟩
  · rw [List.length_append, List.length_singleton] at hl
    rcases Nat.lt_succ_iff_lt_or_eq.mp hl with hlt | rfl
    · obtain ⟨offset, size', hoff, hsize', hfound'⟩ := h.found l hlt
      refine ⟨offset, size', ?_, ?_, ?_⟩
      · rw [List.getElem?_append_left (by omega), hoff]
      · rw [List.getElem?_append_left hlt, hsize']
      · rw [Function.update_of_ne hlt.ne, Function.update_of_ne hlt.ne]
        exact hfound'.append more
    · refine ⟨segments.length, size, ?_, ?_, ?_⟩
      · rw [List.getElem?_append_left (by omega), htop]
      · simp
      · rw [Function.update_self, Function.update_self]
        exact hfound
  · rw [Function.update_of_ne hpos.ne]
    exact h.bottom
  · rw [List.length_append, List.length_singleton] at hl
    have hlt : l < sizes.length := by omega
    rw [List.getElem?_append_left hlt] at hsize'
    rw [Function.update_of_ne hlt.ne]
    rcases Nat.lt_or_ge (l + 1) sizes.length with hlt' | hge
    · rw [Function.update_of_ne hlt'.ne]
      exact h.above l hlt' size' hsize'
    · obtain rfl : l = sizes.length - 1 := by omega
      rw [Nat.sub_add_cancel hpos, Function.update_self]
      rw [← List.getLast?_eq_getElem?] at hsize'
      exact habove size' hsize'

/-- All levels are sane, each one over the one below it and the first over `n` keys. -/
def AllSane (segments : List Segment) (sizes offsets : List Nat) (n : Nat) : Prop :=
  ∀ l < sizes.length, ∃ offset size below, offsets[l]? = some offset ∧ sizes[l]? = some size ∧ (n :: sizes)[l]? = some below ∧
    Sane segments offset size below

theorem AllSane.add {sizes offsets : List Nat} {more : List Segment} {below : Nat} (h : AllSane segments sizes offsets n)
    (hlength : offsets.length = sizes.length + 1) (hoffset : offsets.getLast? = some segments.length) (offset' : Nat)
    (hbelow : sizes.getLast? = some below) (hsane : Sane (segments ++ more) segments.length size below) :
    AllSane (segments ++ more) (sizes ++ [size]) (offsets ++ [offset']) n := by
  intro l hl
  rw [List.length_append, List.length_singleton] at hl
  rcases Nat.lt_succ_iff_lt_or_eq.mp hl with hlt | rfl
  · obtain ⟨offset, size', below', hoff, hsize', hbelow', hsane'⟩ := h l hlt
    refine ⟨offset, size', below', ?_, ?_, ?_, hsane'.append more⟩
    · rw [List.getElem?_append_left (by omega), hoff]
    · rw [List.getElem?_append_left hlt, hsize']
    · rw [← List.cons_append, List.getElem?_append_left (by simp only [List.length_cons]; omega), hbelow']
  · refine ⟨segments.length, size, below, ?_, by simp, ?_, hsane⟩
    · rw [List.getLast?_eq_getElem?, hlength] at hoffset
      rw [List.getElem?_append_left (by omega)]
      exact hoffset
    · rw [← List.cons_append, List.getElem?_append_left (by simp)]
      cases sizes with
      | nil => cases hbelow
      | cons first sizes =>
        rw [List.getLast?_eq_getElem?] at hbelow
        exact hbelow

/-- What holds whenever a level is finished. -/
structure Built (w recursiveError firstKey last n : Nat) (bottom : Nat → Nat → Prop) (b : Building) : Prop where
  heights : b.levelsOffsets.length = b.levelsSizes.length + 1
  height_pos : 0 < b.levelsSizes.length
  zero : b.levelsOffsets[0]? = some 0
  offset : b.levelsOffsets.getLast? = some b.segments.length
  top : ∃ below level pad, b.segments = below ++ level ++ [pad] ∧ b.levelsOffsets[b.levelsOffsets.length - 2]? = some below.length ∧
    b.levelsSizes.getLast? = some level.length ∧ b.lastN = level.length ∧ 0 < level.length ∧ Keys firstKey last level
  le : b.lastN ≤ n + 1
  sane : AllSane b.segments b.levelsSizes b.levelsOffsets n
  route : ∀ q, firstKey ≤ q → q ≤ last →
    ∃ j p, Route w recursiveError b.segments b.levelsSizes b.levelsOffsets q (bottom q) j p

variable {recursiveError : Nat} {bottom : Nat → Nat → Prop}

theorem Built.add {b b' : Building} (h : Built w recursiveError firstKey last n bottom b) (hlt : 1 < b.lastN)
    (hfirst : firstKey ≤ last) {below : Nat} (hbelow : b.levelsOffsets[b.levelsOffsets.length - 2]? = some below)
    (hgrown : Grown w firstKey last recursiveError (inFunRec b.segments below) b b') :
    Built w recursiveError firstKey last n bottom b' ∧ b'.lastN < b.lastN := by
  obtain ⟨under, level, pad, hsegments, hunder, hsize, hlastN, hpos, hkeys⟩ := h.top
  obtain rfl : under.length = below := Option.some.inj (hunder.symm.trans hbelow)
  obtain ⟨level', pad', rfl, hpos', hkeys', -, hless, hsane, hfound⟩ := hgrown
  have hone : isFirst (inFunRec b.segments under.length) 1 = true := by
    rw [hsegments]
    exact hkeys.isFirst (by omega) (fun _ => (hkeys.getElem_zero hpos).le.trans hfirst) [pad]
  have hdecreases := hless hlt hone
  refine ⟨⟨by simp [h.heights], by simp, ?_, ?_, ⟨b.segments, level', pad', rfl, ?_, by simp, rfl, hpos', hkeys'⟩,
    hdecreases.le.trans h.le, ?_, fun q hq hql => ?_⟩, hdecreases⟩
  · have hheights := h.heights
    rw [List.getElem?_append_left (by omega), h.zero]
  · simp
    omega
  · have hheights := h.heights
    have hoffset := h.offset
    rw [List.getLast?_eq_getElem?] at hoffset
    rw [List.length_append, List.length_singleton, List.getElem?_append_left (by omega), ← hoffset]
    rfl
  · rw [List.append_assoc] at hsane ⊢
    exact h.sane.add h.heights h.offset _ hsize (hlastN ▸ hsane)
  · obtain ⟨j, p, hfound', hclose⟩ := hfound q hq hql
    obtain ⟨js, ps, hroute⟩ := h.route q hq hql
    rw [List.append_assoc] at hfound' ⊢
    refine ⟨_, _, hroute.add h.height_pos h.heights h.offset _ hfound' fun size' hsize' => ?_⟩
    obtain rfl : level.length = size' := Option.some.inj (hsize.symm.trans hsize')
    obtain ⟨offset, size', hoff, hsize'', hunder'⟩ := hroute.found (b.levelsSizes.length - 1) (by have := h.height_pos; omega)
    obtain rfl : offset = under.length := by
      have hheights := h.heights
      rw [hheights] at hunder
      exact Option.some.inj (hoff.symm.trans hunder)
    rw [← List.getLast?_eq_getElem?, hsize, Option.some.injEq] at hsize''
    subst hsize''
    rw [hsegments] at hunder' hclose
    rw [hlastN] at hclose
    exact hkeys.close hunder' hql hclose

theorem addUpperLevels_spec {b : Building} (h : Built w recursiveError firstKey last n bottom b) (hfirst : firstKey ≤ last)
    (hlimit : n + 1 < 2 ^ 31) (hlast : last < maxKey w) :
    Returns (addUpperLevels w last recursiveError b) fun b' => Built w recursiveError firstKey last n bottom b' ∧
      (recursiveError ≠ 0 → b'.lastN = 1) := by
  rw [addUpperLevels]
  apply Returns.whileDo (I := Built w recursiveError firstKey last n bottom) Building.lastN
  · intro b hb
    obtain ⟨below, level, pad, hsegments, hbelow, -, hlastN, hpos, hkeys⟩ := hb.top
    have hle := hb.le
    rw [Returns.some_iff]
    split
    · next hcond =>
      obtain ⟨herror, hlt⟩ := of_decide_eq_true hcond
      have hpts : Points firstKey last b.lastN (inFunRec b.segments below.length) := by
        rw [hsegments, hlastN]
        exact hkeys.points hpos [pad]
      rw [hbelow, Option.bind_eq_bind, Option.bind_some]
      exact (addLevel_spec hpts (Nat.pos_of_ne_zero herror) (by omega) (by omega) hlast hb.offset).mono fun b' hgrown =>
        hb.add hlt hfirst hbelow hgrown
    · next hcond =>
      rw [decide_eq_true_eq, not_and] at hcond
      refine ⟨hb, fun herror => ?_⟩
      have hnot := hcond herror
      omega
  · exact h

/-- The first level, over the points of the data. -/
theorem Grown.built {b : Building} (hgrown : Grown w firstKey last ε input ⟨[], [], [0], m⟩ b) :
    Built w recursiveError firstKey last m (fun q p => Close ε input 0 m q p) b := by
  obtain ⟨level, pad, rfl, hpos, hkeys, hle, -, hsane, hfound⟩ := hgrown
  refine ⟨rfl, Nat.one_pos, rfl, ?_, ⟨[], level, pad, rfl, rfl, rfl, rfl, hpos, hkeys⟩, hle, fun l hl => ?_, fun q hq hql => ?_⟩
  · simp
  · obtain rfl : l = 0 := Nat.lt_one_iff.mp hl
    exact ⟨0, level.length, m, rfl, rfl, rfl, hsane⟩
  · obtain ⟨j, p, hfound, hclose⟩ := hfound q hq hql
    refine ⟨fun _ => j, fun _ => p, fun l hl => ?_, hclose, fun l hl => ?_⟩
    · obtain rfl : l = 0 := Nat.lt_one_iff.mp hl
      exact ⟨0, level.length, rfl, rfl, hfound⟩
    · exact absurd hl (by simp)

/-- What the constructor returns. -/
structure Ready (w ε recursiveError : Nat) (data : List Nat) (idx : PGMIndex) : Prop where
  n_eq : idx.n = data.length
  firstKey_eq : idx.firstKey = data.getD 0 0
  heights : idx.levelsOffsets.length = idx.levelsSizes.length
  height_pos : 0 < idx.levelsSizes.length
  zero : idx.levelsOffsets[0]? = some 0
  top : recursiveError ≠ 0 → idx.levelsSizes.getLast? = some 1
  sane : AllSane idx.segments idx.levelsSizes idx.levelsOffsets data.length
  route : ∀ q, data.getD 0 0 ≤ q → q ≤ data.getD (data.length - 1) 0 → ∃ j p,
    Route w recursiveError idx.segments idx.levelsSizes idx.levelsOffsets q (Close ε (inFun w data) 0 data.length q) j p

theorem build_spec {data : List Nat} (hsorted : data.Pairwise (· ≤ ·)) (hkeys : ∀ k ∈ data, k < maxKey w) (hne : data ≠ [])
    (hε : 0 < ε) (hsize : data.length + 1 < 2 ^ 31) : Returns (build w ε recursiveError data) (Ready w ε recursiveError data) := by
  have hpos : 0 < data.length := List.length_pos_iff.mpr hne
  have hhead : data.head? = some (data.getD 0 0) := by
    rw [List.head?_eq_getElem?, List.getD_eq_getElem _ _ hpos, List.getElem?_eq_getElem hpos]
  have hgetLast : data.getLast? = some (data.getD (data.length - 1) 0) := by
    rw [List.getLast?_eq_getElem?, List.getD_eq_getElem _ _ (by omega), List.getElem?_eq_getElem]
  have hlast := getD_lt hkeys (i := data.length - 1) (by omega)
  have hfirst := getD_le hsorted (Nat.zero_le _) (k := data.length - 1) (by omega)
  rw [build, hhead, hgetLast]
  simp only [Option.bind_eq_bind, Option.bind_some, if_neg hlast.ne, Nat.sub_zero,
    makeSegmentationPar_eq hpos (inFun_points hsorted hkeys).ascending]
  have hground := addLevel_spec (b := ⟨[], [], [0], data.length⟩) (inFun_points hsorted hkeys) hε hpos (Nat.lt_of_succ_lt hsize)
    hlast rfl
  refine Returns.bind hground fun b hgrown => ?_
  have hbuilt : Built w recursiveError (data.getD 0 0) (data.getD (data.length - 1) 0) data.length
    (Close ε (inFun w data) 0 data.length) b := hgrown.built
  refine Returns.bind (addUpperLevels_spec hbuilt hfirst (by omega) hlast) ?_
  rintro b' ⟨hb, htop⟩
  have hheights := hb.heights
  have hdrop : ∀ l, l < b'.levelsSizes.length → b'.levelsOffsets.dropLast[l]? = b'.levelsOffsets[l]? := fun l hl => by
    rw [List.getElem?_dropLast, if_pos (by omega)]
  refine Returns.some_iff.mpr ⟨rfl, rfl, ?_, hb.height_pos, ?_, fun herror => ?_, fun l hl => ?_, fun q hq hql => ?_⟩
  · change b'.levelsOffsets.dropLast.length = b'.levelsSizes.length
    rw [List.length_dropLast]
    omega
  · exact (hdrop 0 hb.height_pos).trans hb.zero
  · obtain ⟨-, level, -, -, -, hsize, hlastN, -⟩ := hb.top
    exact hsize.trans (congrArg some (hlastN.symm.trans (htop herror)))
  · obtain ⟨offset, size, below, hoffset, hrest⟩ := hb.sane l hl
    exact ⟨offset, size, below, (hdrop l hl).trans hoffset, hrest⟩
  · obtain ⟨j, p, hroute⟩ := hb.route q hq hql
    refine ⟨j, p, fun l hl => ?_, hroute.bottom, hroute.above⟩
    obtain ⟨offset, size, hoffset, hrest⟩ := hroute.found l hl
    exact ⟨offset, size, (hdrop l hl).trans hoffset, hrest⟩

end LearnedIndex.StaticPgm
