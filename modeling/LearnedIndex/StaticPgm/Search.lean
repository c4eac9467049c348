import LearnedIndex.Searches.Linear
import LearnedIndex.StaticPgm.Build

/-! The way down from the root to the segment for a key, and the range that comes out. -/

namespace LearnedIndex.StaticPgm

open PiecewiseLinear PGMIndex Searches DynamicPgm

variable {w ε recursiveError n m offset size below q j p it : Nat} {segments : List Segment} {idx : PGMIndex} {data : List Nat}
  (method : SearchMethod)

theorem readKey_eq {i : Nat} {s : Segment} (h : segments[i]? = some s) : readKey segments i = some s.key := by
  rw [readKey, if_pos (Int.natCast_nonneg i), Int.toNat_natCast, h]
  rfl

theorem upperBound_spec {lo hi : Nat} {before : Int → Bool} (hlohi : lo ≤ hi)
    (hprobes : Probes (notGreaterProbe (readKey segments) q) before lo hi) :
    Returns (upperBound method segments lo hi q) fun r => Cut before lo hi r := by
  rw [upperBound]
  obtain ⟨r, hr, hcut⟩ := method.search_spec hprobes le_rfl (Int.ofNat_le.mpr hlohi)
  refine ⟨r.toNat, by rw [hr]; rfl, ?_⟩
  have hle := hcut.first_le
  have hcast : (r.toNat : Int) = r := Int.toNat_of_nonneg (by omega)
  exact hcast.symm ▸ hcut

theorem readKey_at {i : Int} {s : Segment} (hi : (offset : Int) ≤ i) (h : segments[offset + (i.toNat - offset)]? = some s) :
    readKey segments i = some s.key := by
  rw [show offset + (i.toNat - offset) = i.toNat by omega] at h
  have hread := readKey_eq h
  rwa [Int.toNat_of_nonneg (by omega)] at hread

theorem Sane.probes (h : Sane segments offset size m) {lo hi : Nat} (hlo : offset ≤ lo) (hhi : hi ≤ offset + size) :
    Probes (notGreaterProbe (readKey segments) q) (fun i => (readKey segments i).any fun k => decide (k ≤ q)) lo hi where
  reads i hi' hlt := by
    obtain ⟨s, -, hs, -⟩ := h.ascending (i.toNat - offset) (i.toNat - offset) le_rfl (by omega)
    have hread := readKey_at (by omega) hs
    simp only [notGreaterProbe, hread, Option.map_some, Option.any_some, ← not_lt, decide_not]
  falls i k hi' hik hk hbefore := by
    obtain ⟨s, t, hs, ht, hle⟩ := h.ascending (i.toNat - offset) (k.toNat - offset) (by omega) (by omega)
    rw [readKey_at (by omega) ht, Option.any_some, decide_eq_true_eq] at hbefore
    rw [readKey_at (by omega) hs, Option.any_some, decide_eq_true_eq]
    exact hle.trans hbefore

theorem Found.probes (h : Found w segments offset size q j p) {lo hi : Nat} (hlo : offset ≤ lo) (hhi : hi ≤ offset + size) :
    Probes (notGreaterProbe (readKey segments) q) (fun i => decide (i ≤ (offset + j : Nat))) lo hi where
  reads i hi' hlt := by
    obtain ⟨s, hs, hkey⟩ := h.keys (i.toNat - offset) (by omega)
    have hread := readKey_at (by omega) hs
    have hiff : s.key ≤ q ↔ i ≤ (offset + j : Nat) := by rw [hkey]; omega
    simp only [notGreaterProbe, hread, Option.map_some, ← hiff, ← not_lt, decide_not]
  falls i k _ hik _ hbefore := decide_eq_true (hik.trans (of_decide_eq_true hbefore))

/-- Among keys that do not fall any range can be searched. -/
theorem Sane.upperBound_range (h : Sane segments offset size m) {lo hi : Nat} (hlo : offset ≤ lo) (hlohi : lo ≤ hi) (hhi : hi ≤ offset + size) :
    Returns (upperBound method segments lo hi q) fun r => lo ≤ r ∧ r ≤ hi := by
  refine (upperBound_spec method hlohi (h.probes hlo hhi)).mono fun r hr => ?_
  exact ⟨Int.ofNat_le.mp hr.first_le, Int.ofNat_le.mp hr.le_last⟩

/-- A range around the segment for the key has the place behind it. -/
theorem Found.upperBound_eq (h : Found w segments offset size q j p) {lo hi : Nat} (hlo : offset ≤ lo) (hlj : lo ≤ offset + j + 1)
    (hjh : offset + j + 1 ≤ hi) (hhi : hi ≤ offset + size) :
    upperBound method segments lo hi q = some (offset + j + 1) := by
  obtain ⟨r, hr, hcut⟩ := upperBound_spec method (hlj.trans hjh) (h.probes hlo hhi)
  have hle := hcut.first_le
  have hge := hcut.le_last
  rw [hr, Option.some.injEq]
  apply le_antisymm
  · by_contra hgt
    have hbelow := of_decide_eq_true (hcut.below (r - 1) (by omega) (by omega))
    omega
  · by_contra hlt
    have habove := of_decide_eq_false (hcut.above (offset + j : Nat) (by omega) (by omega))
    exact habove le_rfl

theorem subErr_le (x error : Nat) : subErr x error ≤ x := by
  rw [subErr]
  split <;> omega

theorem le_addErr {x y error size : Nat} (hy : y ≤ x + error) (hsize : y ≤ size) : y ≤ addErr x error size := by
  rw [addErr]
  split <;> omega

theorem addErr_le (x error size : Nat) : addErr x error size ≤ size := by
  rw [addErr]
  split <;> omega

theorem stepBack_succ (offset j : Nat) : stepBack offset (offset + j + 1) = offset + j := by
  rw [stepBack, if_neg (by omega), Nat.add_sub_cancel]

theorem stepBack_range {r : Nat} (hpos : 0 < size) (hle : offset ≤ r) (hr : r ≤ offset + size) :
    offset ≤ stepBack offset r ∧ stepBack offset r < offset + size := by
  rw [stepBack]
  split <;> omega

theorem Found.approximatePosition_eq (h : Found w idx.segments offset size q j p) :
    approximatePosition w idx (offset + j) q = some p := by
  obtain ⟨s, next, hs, hnext, rfl⟩ := h.position
  simp only [approximatePosition, hs, hnext, Option.bind_eq_bind, Option.bind_some]
  rfl

/-- The position of any segment of a level is inside what is below the level. -/
theorem Sane.approximatePosition_le (h : Sane idx.segments offset size below) {i : Nat} (hi : i < size) :
    Returns (approximatePosition w idx (offset + i) q) fun pos => pos ≤ below := by
  obtain ⟨s, -, hs, -⟩ := h.ascending i i le_rfl hi
  obtain ⟨next, hnext, hle⟩ := h.next i hi
  rw [approximatePosition, hs, Option.bind_eq_bind, Option.bind_some, hnext]
  exact Returns.some_iff.mpr ((min_le_right _ _).trans hle)

section Descend

/-- From the position of the segment on the level above to the segment for the key. -/
theorem descend_found {l : Nat} (hoffset : idx.levelsOffsets[l]? = some offset) (hsize : idx.levelsSizes[l]? = some size)
    (hpos : approximatePosition w idx it q = some p) (h : Found w idx.segments offset size q j n)
    (hahead : j ≤ p + recursiveError + 1) (hbehind : p ≤ j + 1 + recursiveError) :
    descend method w recursiveError idx q it l = some (offset + j) := by
  have hj := h.lt
  have hlo : subErr p (recursiveError + 1) ≤ j := by
    rw [subErr]
    split <;> omega
  have hhi : j + 1 ≤ addErr p (recursiveError + 2) size := le_addErr (by omega) hj
  have hup := addErr_le p (recursiveError + 2) size
  simp only [descend, hoffset, hpos, hsize, Option.bind_eq_bind, Option.bind_some]
  rw [h.upperBound_eq method (by omega) (by omega) (by omega) (by omega)]
  exact congrArg some (stepBack_succ offset j)

/-- Whatever the key is, no access is out of range on the way. -/
theorem descend_range {l : Nat} (hoffset : idx.levelsOffsets[l]? = some offset) (hsize : idx.levelsSizes[l]? = some size)
    (hpos : Returns (approximatePosition w idx it q) fun pos => pos ≤ size) (h : Sane idx.segments offset size m) :
    Returns (descend method w recursiveError idx q it l) fun it' => offset ≤ it' ∧ it' < offset + size := by
  obtain ⟨pos, hpos, hle⟩ := hpos
  have hlo := subErr_le pos (recursiveError + 1)
  have hhi : subErr pos (recursiveError + 1) ≤ addErr pos (recursiveError + 2) size := le_addErr (by omega) (hlo.trans hle)
  have hup := addErr_le pos (recursiveError + 2) size
  simp only [descend, hoffset, hpos, hsize, Option.bind_eq_bind, Option.bind_some]
  refine Returns.bind (h.upperBound_range method (by omega) (by omega) (by omega)) fun r hr => ?_
  exact Returns.some_iff.mpr (stepBack_range h.pos (by omega) (by omega))

/-- Down from level `k`, whatever the key is. -/
theorem descend_all_range (hsane : AllSane idx.segments idx.levelsSizes idx.levelsOffsets n) {k : Nat}
    (hk : k < idx.levelsSizes.length) (hoffset : idx.levelsOffsets[k]? = some offset) (hsize : idx.levelsSizes[k]? = some size)
    (hlo : offset ≤ it) (hhi : it < offset + size) :
    Returns ((List.range k).reverse.foldlM (descend method w recursiveError idx q) it) fun it' =>
      Returns (approximatePosition w idx it' q) fun pos => pos ≤ n := by
  induction k generalizing it offset size with
  | zero =>
    obtain ⟨offset', size', below, hoffset', hsize', hbelow, h⟩ := hsane 0 hk
    obtain rfl : offset' = offset := Option.some.inj (hoffset'.symm.trans hoffset)
    obtain rfl : size' = size := Option.some.inj (hsize'.symm.trans hsize)
    obtain rfl : n = below := Option.some.inj hbelow
    refine Returns.some_iff.mpr ?_
    rw [show it = offset' + (it - offset') by omega]
    exact h.approximatePosition_le (by omega)
  | succ k ih =>
    obtain ⟨offset', size', below, hoffset', hsize', hbelow, h⟩ := hsane (k + 1) hk
    obtain rfl : offset' = offset := Option.some.inj (hoffset'.symm.trans hoffset)
    obtain rfl : size' = size := Option.some.inj (hsize'.symm.trans hsize)
    obtain ⟨under, sizeUnder, below', hunder, hsizeUnder, -, hsane'⟩ := hsane k (Nat.lt_of_succ_lt hk)
    obtain rfl : sizeUnder = below := Option.some.inj (hsizeUnder.symm.trans hbelow)
    rw [List.range_succ, List.reverse_append, List.reverse_singleton, List.singleton_append, List.foldlM_cons]
    have hpos : Returns (approximatePosition w idx it q) fun pos => pos ≤ sizeUnder := by
      rw [show it = offset' + (it - offset') by omega]
      exact h.approximatePosition_le (by omega)
    exact Returns.bind (descend_range method hunder hsizeUnder hpos hsane') fun it' hit' =>
      ih (Nat.lt_of_succ_lt hk) hunder hsizeUnder hit'.1 hit'.2

/-- Down the way of a key from level `k`. -/
theorem descend_all_found {bottom : Nat → Prop} {js ps : Nat → Nat}
    (h : Route w recursiveError idx.segments idx.levelsSizes idx.levelsOffsets q bottom js ps) {k : Nat}
    (hk : k < idx.levelsSizes.length) (hzero : idx.levelsOffsets[0]? = some 0) (hoffset : idx.levelsOffsets[k]? = some offset) :
    (List.range k).reverse.foldlM (descend method w recursiveError idx q) (offset + js k) = some (js 0) := by
  induction k generalizing offset with
  | zero =>
    obtain rfl : 0 = offset := Option.some.inj (hzero.symm.trans hoffset)
    rw [Nat.zero_add]
    rfl
  | succ k ih =>
    obtain ⟨offset', size, hoffset', -, hfound⟩ := h.found (k + 1) hk
    obtain rfl : offset' = offset := Option.some.inj (hoffset'.symm.trans hoffset)
    obtain ⟨under, sizeUnder, hunder, hsizeUnder, hfound'⟩ := h.found k (Nat.lt_of_succ_lt hk)
    obtain ⟨hahead, hbehind, -⟩ := h.above k hk sizeUnder hsizeUnder
    rw [List.range_succ, List.reverse_append, List.reverse_singleton, List.singleton_append, List.foldlM_cons,
      descend_found method hunder hsizeUnder hfound.approximatePosition_eq hfound' hahead hbehind]
    exact ih (Nat.lt_of_succ_lt hk) hunder

end Descend

section Segments

theorem Found.stdUpperBound_eq (h : Found w segments 0 size q j p) : stdUpperBound segments size q = j + 1 := by
  have hj := h.lt
  obtain ⟨s, hs, -⟩ := h.keys (size - 1) (by omega)
  have hlength : (segments.take size).length = size := by
    have hlt := (List.getElem?_eq_some_iff.mp hs).1
    rw [List.length_take]
    omega
  have hkey : ∀ i (hi : i < (segments.take size).length), (segments.take size)[i].key ≤ q ↔ i ≤ j := by
    intro i hi
    obtain ⟨s, hs, hkey⟩ := h.keys i (hlength ▸ hi)
    rw [Nat.zero_add] at hs
    rw [List.getElem_take, (List.getElem?_eq_some_iff.mp hs).2, hkey]
  have hle : stdUpperBound segments size q ≤ (segments.take size).length := List.findIdx_le_length
  apply le_antisymm
  · by_contra hgt
    have hlt : j + 1 < (segments.take size).length := by omega
    have hnot := of_decide_eq_false (List.not_of_lt_findIdx (not_le.mp hgt))
    have hbehind := (hkey (j + 1) hlt).mp (not_lt.mp hnot)
    omega
  · by_contra hlt
    have hlt' : stdUpperBound segments size q < (segments.take size).length := by omega
    have hfound := of_decide_eq_true (List.findIdx_getElem (w := hlt'))
    have hahead := (hkey _ hlt').mpr (by omega)
    exact absurd hfound (not_lt.mpr hahead)

/-- The segment that is found for any key has a position inside the data. -/
theorem Ready.segmentForKey_range (h : Ready w ε recursiveError data idx) (key : Nat) :
    Returns (segmentForKey method w recursiveError idx key) fun it =>
      Returns (approximatePosition w idx it key) fun pos => pos ≤ data.length := by
  rw [segmentForKey]
  split
  · obtain ⟨offset, size, below, hoffset, hsize, hbelow, hsane⟩ := h.sane 0 h.height_pos
    obtain rfl : 0 = offset := Option.some.inj (h.zero.symm.trans hoffset)
    obtain rfl : data.length = below := Option.some.inj hbelow
    have hle : stdUpperBound idx.segments size key ≤ size := List.findIdx_le_length.trans (List.length_take_le _ _)
    have hrange := stepBack_range hsane.pos (Nat.zero_le _) (hle.trans (Nat.zero_add size).ge)
    rw [hsize]
    refine Returns.some_iff.mpr ?_
    rw [← Nat.zero_add (stepBack 0 _)]
    exact hsane.approximatePosition_le (by omega)
  · next herror =>
    have hpos := h.height_pos
    have htop := h.top herror
    obtain ⟨offset, size, -, hoffset, hsize, -⟩ := h.sane (idx.levelsSizes.length - 1) (by omega)
    rw [← List.getLast?_eq_getElem?, htop, Option.some.injEq] at hsize
    subst hsize
    have hlast : idx.levelsOffsets.getLast? = some offset := by rw [List.getLast?_eq_getElem?, h.heights, hoffset]
    rw [hlast]
    have hone : idx.levelsSizes[idx.levelsSizes.length - 1]? = some 1 := by rw [← List.getLast?_eq_getElem?, htop]
    exact descend_all_range method h.sane (by omega) hoffset hone le_rfl (Nat.lt_succ_self _)

/-- For the keys of the data it is the one whose position is close. -/
theorem Ready.segmentForKey_found (h : Ready w ε recursiveError data idx) {key : Nat} (hfirst : data.getD 0 0 ≤ key)
    (hlast : key ≤ data.getD (data.length - 1) 0) :
    Returns (segmentForKey method w recursiveError idx key) fun it =>
      Returns (approximatePosition w idx it key) (Close ε (inFun w data) 0 data.length key) := by
  obtain ⟨js, ps, hroute⟩ := h.route key hfirst hlast
  have hpos := h.height_pos
  obtain ⟨offset, size, hoffset, hsize, hfound⟩ := hroute.found 0 hpos
  obtain rfl : 0 = offset := Option.some.inj (h.zero.symm.trans hoffset)
  have hposition : Returns (approximatePosition w idx (js 0) key) (Close ε (inFun w data) 0 data.length key) := by
    refine ⟨ps 0, ?_, hroute.bottom⟩
    rw [← Nat.zero_add (js 0)]
    exact hfound.approximatePosition_eq
  refine ⟨js 0, ?_, hposition⟩
  rw [segmentForKey]
  split
  · rw [hsize, Option.bind_eq_bind, Option.bind_some, hfound.stdUpperBound_eq]
    have hback := stepBack_succ 0 (js 0)
    simp only [Nat.zero_add] at hback
    exact congrArg some hback
  · next herror =>
    obtain ⟨offset', size', hoffset', hsize', htop⟩ := hroute.found (idx.levelsSizes.length - 1) (by omega)
    rw [← List.getLast?_eq_getElem?, h.top herror, Option.some.injEq] at hsize'
    subst hsize'
    have hzero : js (idx.levelsSizes.length - 1) = 0 := Nat.lt_one_iff.mp htop.lt
    have hdown := descend_all_found method hroute (by omega) h.zero hoffset'
    rw [hzero, Nat.add_zero] at hdown
    have hlastOffset : idx.levelsOffsets.getLast? = some offset' := by rw [List.getLast?_eq_getElem?, h.heights, hoffset']
    rw [hlastOffset]
    exact hdown

end Segments

theorem getD_lt_iff (hsorted : data.Pairwise (· ≤ ·)) (key : Nat) {i : Nat} (hi : i < data.length) :
    data.getD i 0 < key ↔ i < rank data key := by
  rw [← less_iff hsorted, less, List.getElem?_eq_getElem hi, Option.any_some, decide_eq_true_eq, List.getD_eq_getElem _ _ hi]

/-- A key that is not behind the data has a point where its lower bound is. -/
theorem inFun_rank (hsorted : data.Pairwise (· ≤ ·)) (hkeys : ∀ k ∈ data, k < maxKey w) {key : Nat} (hlt : rank data key < data.length) :
    (inFun w data (rank data key)).x = data.getD (rank data key) 0 ∧ isFirst (inFun w data) (rank data key) = true ∧
      key ≤ data.getD (rank data key) 0 := by
  have hge : key ≤ data.getD (rank data key) 0 := not_lt.mp fun h => lt_irrefl _ ((getD_lt_iff hsorted key hlt).mp h)
  obtain ⟨hx, hfirst⟩ := inFun_isFirst hsorted hkeys (i := rank data key) fun hpos =>
    ((getD_lt_iff hsorted key (by omega)).mpr (by omega)).trans_le hge
  exact ⟨hx, hfirst, hge⟩

/-- The range does not begin behind the lower bound of the key. -/
theorem Close.lo_le (hsorted : data.Pairwise (· ≤ ·)) (hkeys : ∀ k ∈ data, k < maxKey w) {key pos : Nat}
    (h : Close ε (inFun w data) 0 data.length key pos) : subErr pos ε ≤ rank data key := by
  rcases (rank_le_length data key).lt_or_eq with hlt | heq
  · obtain ⟨hx, hfirst, hge⟩ := inFun_rank hsorted hkeys hlt
    have hbehind := h.behind _ (Nat.zero_le _) hlt hfirst (by rw [hx]; exact Int.ofNat_le.mpr hge)
    rw [subErr]
    split <;> omega
  · exact (subErr_le pos ε).trans (h.le.trans heq.ge)

/-- The range of a key of the data ends behind the first position of the key. -/
theorem Close.le_hi (hsorted : data.Pairwise (· ≤ ·)) (hkeys : ∀ k ∈ data, k < maxKey w) {key pos : Nat} (hkey : key ∈ data)
    (h : Close ε (inFun w data) 0 data.length key pos) : rank data key ≤ addErr pos (ε + 1) data.length := by
  obtain ⟨i, hi, hget⟩ := List.getElem_of_mem hkey
  rw [← List.getD_eq_getElem data 0 hi] at hget
  have hle : rank data key ≤ i := not_lt.mp fun hlt => absurd ((getD_lt_iff hsorted key hi).mpr hlt) (by omega)
  obtain ⟨hx, hfirst, -⟩ := inFun_rank hsorted hkeys (hle.trans_lt hi)
  have hget' := getD_le hsorted hle hi
  have hahead := h.ahead _ (Nat.zero_le _) (hle.trans_lt hi) hfirst (by rw [hx]; exact Int.ofNat_le.mpr (hget'.trans hget.le))
  exact le_addErr (by omega) (hle.trans hi.le)

/-- What a range has to be: inside the data, not larger than the errors make it, not behind the
lower bound of its key, and up to the first position of the key if the key is there. -/
structure Range (ε : Nat) (data : List Nat) (key : Nat) (range : ApproxPos) : Prop where
  lo_le : range.lo ≤ range.pos
  le_hi : range.pos ≤ range.hi
  hi_le : range.hi ≤ data.length
  size_le : range.hi ≤ range.lo + 2 * ε + 1
  lo_le_rank : range.lo ≤ rank data key
  rank_le_hi : key ∈ data → rank data key ≤ range.hi

theorem Ready.range (h : Ready w ε recursiveError data idx) (hsorted : data.Pairwise (· ≤ ·)) (hkeys : ∀ k ∈ data, k < maxKey w)
    (hne : data ≠ []) (key : Nat) : Returns (findApproximatePosition method w ε recursiveError idx key) (Range ε data key) := by
  have hpos := List.length_pos_iff.mpr hne
  obtain ⟨it, hit, pos, hposition, hle⟩ := h.segmentForKey_range method (max idx.firstKey key)
  have hclose : max idx.firstKey key ≤ data.getD (data.length - 1) 0 → Close ε (inFun w data) 0 data.length (max idx.firstKey key) pos := by
    intro hlast
    obtain ⟨it', hit', pos', hposition', hclose⟩ := h.segmentForKey_found method (h.firstKey_eq ▸ le_max_left _ _) hlast
    obtain rfl : it = it' := Option.some.inj (hit.symm.trans hit')
    obtain rfl : pos = pos' := Option.some.inj (hposition.symm.trans hposition')
    exact hclose
  have hfind : findApproximatePosition method w ε recursiveError idx key = some ⟨pos, subErr pos ε, addErr pos (ε + 1) idx.n⟩ := by
    simp only [findApproximatePosition, hit, hposition, Option.bind_eq_bind, Option.bind_some]
    rfl
  rw [h.n_eq] at hfind
  rw [h.firstKey_eq] at hclose
  refine ⟨_, hfind, subErr_le _ _, le_addErr (Nat.le_add_right pos _) hle, addErr_le _ _ _, ?_, ?_, fun hkey => ?_⟩
  · simp only [subErr, addErr]
    split_ifs <;> omega
  · rcases Nat.lt_or_ge (data.getD (data.length - 1) 0) key with hgt | hge
    · have hrank := (getD_lt_iff hsorted key (i := data.length - 1) (by omega)).mp hgt
      exact (subErr_le pos ε).trans (by omega)
    · have hfirst := getD_le hsorted (Nat.zero_le _) (k := data.length - 1) (by omega)
      have hlo := (hclose (max_le hfirst hge)).lo_le hsorted hkeys
      rcases le_total (data.getD 0 0) key with hle' | hle'
      · rwa [max_eq_right hle'] at hlo
      · -- Nothing is in front of the first key.
        rw [max_eq_left hle'] at hlo
        have hzero : ¬ 0 < rank data (data.getD 0 0) := fun hlt => lt_irrefl _ ((getD_lt_iff hsorted _ hpos).mpr hlt)
        exact hlo.trans (by omega)
  · obtain ⟨i, hi, hget⟩ := List.getElem_of_mem hkey
    rw [← List.getD_eq_getElem data 0 hi] at hget
    have hfirst : data.getD 0 0 ≤ key := hget ▸ getD_le hsorted (Nat.zero_le i) hi
    have hlast : key ≤ data.getD (data.length - 1) 0 := hget ▸ getD_le hsorted (by omega) (by omega)
    rw [max_eq_right hfirst] at hclose
    exact (hclose hlast).le_hi hsorted hkeys hkey

/-- `LinearSearch` as the search class of an index. -/
def linear : SearchMethod := ⟨LinearSearch.search, LinearSearch.search_spec⟩

end LearnedIndex.StaticPgm
