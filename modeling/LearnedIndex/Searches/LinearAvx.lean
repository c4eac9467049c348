import LearnedIndex.Searches.Linear
import LearnedIndex.Simd

/-! `LinearAVX`: the linear search in blocks of four vectors. -/

namespace LearnedIndex.Searches

open Simd Loop

instance instLinearOrderBitVec {w : Nat} : LinearOrder (BitVec w) where
  le_refl := BitVec.le_refl
  le_trans _ _ _ := BitVec.le_trans
  lt_iff_le_not_ge a b := by
    rw [BitVec.not_le]
    exact ⟨fun h => ⟨BitVec.le_of_lt h, h⟩, And.right⟩
  le_antisymm _ _ := BitVec.le_antisymm
  le_total := BitVec.le_total
  toDecidableLE := inferInstance
  toDecidableEq := inferInstance
  toDecidableLT := inferInstance

section Comparisons

def cmpgeEpu32 (a b : M256) : M256 := cmpeqEpi32 (maxEpu32 a b) a

def cmpleEpu32 (a b : M256) : M256 := cmpgeEpu32 b a

def cmpgtEpu32 (a b : M256) : M256 := Simd.xor (cmpleEpu32 a b) (set1 (-1#32))

def cmpltEpu32 (a b : M256) : M256 := cmpgtEpu32 b a

def highBit : M256 := set1 0x8000000000000000#64

def cmpgtEpu64 (a b : M256) : M256 := cmpgtEpi64 (Simd.xor a highBit) (Simd.xor b highBit)

def cmpltEpu64 (a b : M256) : M256 := cmpgtEpu64 b a

def cmpgeEpu64 (a b : M256) : M256 := Simd.xor (cmpltEpu64 a b) (set1 (-1#32))

def cmpleEpu64 (a b : M256) : M256 := cmpgeEpu64 b a

theorem cmpgeEpu32_lanes (x y : Nat → BitVec 32) :
    cmpgeEpu32 (ofLanes x) (ofLanes y) = mask 32 fun i => decide (y i ≤ x i) := by
  rw [cmpgeEpu32, cmpeqEpi32]
  apply mask_congr
  intro i hi
  rw [maxEpu32, lane_ofLanes _ (by omega), lane_ofLanes x (by omega), lane_ofLanes y (by omega)]
  split
  · next hlt =>
    rw [beq_eq_false_iff_ne.mpr hlt.ne', decide_eq_false (not_le.mpr hlt)]
  · next hle => rw [beq_self_eq_true, decide_eq_true (not_lt.mp hle)]

theorem cmpgtEpu32_lanes (x y : Nat → BitVec 32) :
    cmpgtEpu32 (ofLanes x) (ofLanes y) = mask 32 fun i => decide (y i < x i) := by
  rw [cmpgtEpu32, cmpleEpu32, cmpgeEpu32_lanes, xor_mask (by decide)]
  simp only [← decide_not, not_le]

theorem cmpltEpu32_lanes (x y : Nat → BitVec 32) :
    cmpltEpu32 (ofLanes x) (ofLanes y) = mask 32 fun i => decide (x i < y i) := by
  rw [cmpltEpu32, cmpgtEpu32_lanes]

theorem cmpleEpu32_lanes (x y : Nat → BitVec 32) :
    cmpleEpu32 (ofLanes x) (ofLanes y) = mask 32 fun i => decide (x i ≤ y i) := by
  rw [cmpleEpu32, cmpgeEpu32_lanes]

theorem toNat_xor_highBit (x : BitVec 64) : (x ^^^ 0x8000000000000000#64).toNat =
    if x.toNat < 2 ^ 63 then x.toNat + 2 ^ 63 else x.toNat - 2 ^ 63 := by
  have hx : x.toNat < 2 ^ 64 := x.isLt
  have hhigh : (0x8000000000000000#64).toNat = 2 ^ 63 := by decide
  have hdiv : (x.toNat ^^^ 2 ^ 63) / 2 ^ 63 = x.toNat / 2 ^ 63 ^^^ 1 := by
    rw [Nat.xor_div_two_pow, Nat.div_self (by decide)]
  have hmod : (x.toNat ^^^ 2 ^ 63) % 2 ^ 63 = x.toNat % 2 ^ 63 := by
    rw [Nat.xor_mod_two_pow, Nat.mod_self, Nat.xor_zero]
  rw [BitVec.toNat_xor, hhigh]
  split
  · next hlt =>
    rw [Nat.div_eq_of_lt hlt, Nat.zero_xor] at hdiv
    omega
  · next hge =>
    have hone : x.toNat / 2 ^ 63 = 1 := by omega
    rw [hone, Nat.xor_self] at hdiv
    omega

/-- Behind a flip of the top bits the signed comparison is the unsigned one. -/
theorem slt_xor_highBit (x y : BitVec 64) :
    (x ^^^ 0x8000000000000000#64).slt (y ^^^ 0x8000000000000000#64) = decide (x < y) := by
  rw [BitVec.slt, decide_eq_decide, BitVec.lt_def, BitVec.toInt_eq_toNat_cond,
    BitVec.toInt_eq_toNat_cond, toNat_xor_highBit, toNat_xor_highBit]
  have hx : x.toNat < 2 ^ 64 := x.isLt
  have hy : y.toNat < 2 ^ 64 := y.isLt
  split <;> split <;> split <;> split
  all_goals omega

theorem xor_highBit (x : Nat → BitVec 64) :
    Simd.xor (ofLanes x) highBit = ofLanes fun i => x i ^^^ 0x8000000000000000#64 := by
  apply BitVec.eq_of_getLsbD_eq
  intro b hb
  rw [Simd.xor, highBit, set1, BitVec.getLsbD_xor, getLsbD_ofLanes _ hb, getLsbD_ofLanes _ hb,
    getLsbD_ofLanes _ hb, BitVec.getLsbD_xor]

theorem cmpgtEpu64_lanes (x y : Nat → BitVec 64) :
    cmpgtEpu64 (ofLanes x) (ofLanes y) = mask 64 fun i => decide (y i < x i) := by
  rw [cmpgtEpu64, cmpgtEpi64, xor_highBit, xor_highBit]
  apply mask_congr
  intro i hi
  rw [lane_ofLanes _ (by omega), lane_ofLanes _ (by omega), slt_xor_highBit]

theorem cmpltEpu64_lanes (x y : Nat → BitVec 64) :
    cmpltEpu64 (ofLanes x) (ofLanes y) = mask 64 fun i => decide (x i < y i) := by
  rw [cmpltEpu64, cmpgtEpu64_lanes]

theorem cmpgeEpu64_lanes (x y : Nat → BitVec 64) :
    cmpgeEpu64 (ofLanes x) (ofLanes y) = mask 64 fun i => decide (y i ≤ x i) := by
  rw [cmpgeEpu64, cmpltEpu64_lanes, xor_mask (by decide)]
  simp only [← decide_not, not_lt]

theorem cmpleEpu64_lanes (x y : Nat → BitVec 64) :
    cmpleEpu64 (ofLanes x) (ofLanes y) = mask 64 fun i => decide (x i ≤ y i) := by
  rw [cmpleEpu64, cmpgeEpu64_lanes]

end Comparisons

namespace LinearAvx

section Scan

variable {w : Nat} (sh : Shape w) (read : Int → Option (BitVec w)) (cmp : M256 → M256 → M256)
  (key : BitVec w)

/-- The keys from a position on that fill a vector. -/
def load (it : Int) : Option M256 := do
  let keys ← (List.range sh.lanes).mapM fun i : Nat => read (it + i)
  return ofLanes fun i => keys.getD i 0

/-- `res`, by the positions of the four vectors. -/
def compareBlock (it₀ it₁ it₂ it₃ : Int) : Option (BitVec 32) := do
  let cmp₀ := cmp (← load sh read it₀) (set1 key)
  let cmp₁ := cmp (← load sh read it₁) (set1 key)
  let cmp₂ := cmp (← load sh read it₂) (set1 key)
  let cmp₃ := cmp (← load sh read it₃) (set1 key)
  return movemaskEpi8 (packsEpi16 (packsEpi32 cmp₀ cmp₁) (packsEpi32 cmp₂ cmp₃))

structure ScanState where
  i : Nat
  moveIt : Int

/-- `scan_avx` with direction `true`. -/
def scanForward (funcSearch : Int → Int → Int → Option Int) (moveIt stop : Int) : Option Int :=
  let n := (stop - moveIt).toNat
  let step := fun s : ScanState =>
    if s.i ≤ n then do
      let it := s.moveIt
      let res ← compareBlock sh read cmp key it (it + sh.lanes) (it + 2 * sh.lanes)
        (it + 3 * sh.lanes)
      let it := it + 4 * sh.lanes
      let delta : Int := 4 * sh.lanes - (popcount res / 2 ^ sh.shift : Nat)
      if res ≠ -1#32 then return .inr (it - delta)
      else return .inl ⟨s.i + 4 * sh.lanes, it⟩
    else do return .inr (← funcSearch s.moveIt stop s.moveIt)
  if 4 * sh.lanes ≤ n then untilDone step ⟨4 * sh.lanes, moveIt⟩ else funcSearch moveIt stop moveIt

/-- `scan_avx` with direction `false`. -/
def scanBackward (funcSearch : Int → Int → Int → Option Int) (moveIt stop : Int) : Option Int :=
  let n := (moveIt - stop).toNat
  let step := fun s : ScanState =>
    if s.i ≤ n then do
      let it := s.moveIt
      let res ← compareBlock sh read cmp key (it - sh.lanes) (it - 2 * sh.lanes) (it - 3 * sh.lanes)
        (it - 4 * sh.lanes)
      let it := it - 4 * sh.lanes
      let delta : Int := 4 * sh.lanes - (popcount res / 2 ^ sh.shift : Nat)
      if res ≠ -1#32 then return .inr (it + delta)
      else return .inl ⟨s.i + 4 * sh.lanes, it⟩
    else do return .inr (← funcSearch stop s.moveIt s.moveIt)
  if 4 * sh.lanes ≤ n then untilDone step ⟨4 * sh.lanes, moveIt⟩ else funcSearch stop moveIt moveIt

/-- The body of both searches, by the comparison for each direction. -/
def search (probe : Int → Option Bool) (cmpForward cmpBackward : M256 → M256 → M256)
    (first last start : Int) : Option Int :=
  if first = last then some first
  else do
    if ← testStart probe last start then
      scanForward sh read cmpForward key (LinearSearch.search probe) (start + 1) last
    else scanBackward sh read cmpBackward key (LinearSearch.search probe) start first

end Scan

section Count

variable {b : Int → Bool} {p : Int}

/-- How many of `n` positions from `p` on are before the key. -/
def count (b : Int → Bool) (p : Int) (n : Nat) : Nat := (List.range n).countP fun i : Nat => b (p + i)

theorem count_succ (b : Int → Bool) (p : Int) (n : Nat) :
    count b p (n + 1) = count b p n + (b (p + n)).toNat := by
  rw [count, List.range_succ, List.countP_append, count, List.countP_singleton]
  cases b (p + n) <;> rfl

theorem count_add (b : Int → Bool) (p : Int) (m n : Nat) :
    count b p (m + n) = count b p m + count b (p + m) n := by
  induction n with
  | zero => rfl
  | succ n ih => rw [← Nat.add_assoc, count_succ, ih, count_succ, Nat.add_assoc, Int.natCast_add,
      Int.add_assoc]

theorem count_not (b : Int → Bool) (p : Int) (n : Nat) :
    count (fun i => !b i) p n + count b p n = n := by
  induction n with
  | zero => rfl
  | succ n ih =>
    rw [count_succ, count_succ]
    cases b (p + n) <;> simp only [Bool.not_true, Bool.not_false, Bool.toNat_true, Bool.toNat_false] <;> omega

/-- The count is where the cut is. -/
theorem cut_count {probe : Int → Option Bool} {n : Nat} (h : Probes probe b p (p + n)) :
    Cut b p (p + n) (p + count b p n) := by
  induction n with
  | zero =>
    rw [show p + (count b p 0 : Nat) = p from Int.add_zero p]
    rw [show p + (0 : Nat) = p from Int.add_zero p] at h ⊢
    exact h.cut (.refl _ _ _)
  | succ n ih =>
    have hcut := ih (h.restrict le_rfl (by omega))
    have hle := hcut.le_last
    rw [count_succ]
    cases hb : b (p + n) with
    | true =>
      have hfull : count b p n = n := by
        by_contra hne
        have hlast := h.falls (p + count b p n) (p + n) (by omega) hle (by omega) hb
        exact absurd (hlast.symm.trans (hcut.above _ le_rfl (by omega))) (by decide)
      refine ⟨by omega, by rw [Bool.toNat_true]; omega, fun i hi hlt => ?_, fun i hi hlt => ?_⟩
      · exact h.falls i (p + n) hi (by rw [Bool.toNat_true] at hlt; omega) (by omega) hb
      · rw [Bool.toNat_true] at hi
        omega
    | false =>
      rw [Bool.toNat_false, Nat.add_zero]
      refine ⟨hcut.first_le, by omega, hcut.below, fun i hi hlt => ?_⟩
      by_cases hin : i < p + n
      · exact hcut.above i hi hin
      · have heq : i = p + n := by omega
        rw [heq, hb]

end Count

section Blocks

variable {w : Nat} {sh : Shape w} {read : Int → Option (BitVec w)} {cmp : M256 → M256 → M256}
  {key : BitVec w} {it : Int}

theorem load_eq {keyAt : Int → BitVec w}
    (h : ∀ i, it ≤ i → i < it + sh.lanes → read i = some (keyAt i)) :
    load sh read it = some (ofLanes fun i => keyAt (it + i)) := by
  have hkeys : ∀ is : List Nat, (∀ i ∈ is, i < sh.lanes) →
      is.mapM (fun i : Nat => read (it + i)) = some (is.map fun i : Nat => keyAt (it + i)) := by
    intro is his
    induction is with
    | nil => rfl
    | cons i is ih =>
      have hi := his i List.mem_cons_self
      rw [List.mapM_cons, h (it + i) (by omega) (by omega),
        ih fun j hj => his j (List.mem_cons_of_mem i hj)]
      rfl
  rw [load, hkeys _ fun i hi => List.mem_range.mp hi]
  apply congrArg some
  apply ofLanes_congr
  intro i hi
  have hlt : i < sh.lanes := Nat.lt_of_mul_lt_mul_left (sh.w_mul_lanes ▸ hi)
  simp [List.getD, hlt]

/-- The comparison of four neighbouring vectors, in either order, counts the lanes it holds for. -/
theorem compareBlock_spec {keyAt : Int → BitVec w} {g : BitVec w → Bool}
    (hcmp : ∀ x : Nat → BitVec w, cmp (ofLanes x) (set1 key) = mask w fun i => g (x i))
    {it₀ it₁ it₂ it₃ : Int}
    (h₀ : ∀ i, it₀ ≤ i → i < it₀ + sh.lanes → read i = some (keyAt i))
    (h₁ : ∀ i, it₁ ≤ i → i < it₁ + sh.lanes → read i = some (keyAt i))
    (h₂ : ∀ i, it₂ ≤ i → i < it₂ + sh.lanes → read i = some (keyAt i))
    (h₃ : ∀ i, it₃ ≤ i → i < it₃ + sh.lanes → read i = some (keyAt i)) :
    Returns (compareBlock sh read cmp key it₀ it₁ it₂ it₃) fun res => popcount res =
      (count (fun i => g (keyAt i)) it₀ sh.lanes + count (fun i => g (keyAt i)) it₁ sh.lanes +
        count (fun i => g (keyAt i)) it₂ sh.lanes + count (fun i => g (keyAt i)) it₃ sh.lanes) *
        2 ^ sh.shift := by
  rw [compareBlock, load_eq h₀, load_eq h₁, load_eq h₂, load_eq h₃]
  refine Returns.some_iff.mpr ?_
  rw [hcmp, hcmp, hcmp, hcmp, sh.count]
  rfl

theorem count_block (b : Int → Bool) (p : Int) (n : Nat) :
    count b p n + count b (p + n) n + count b (p + 2 * n) n + count b (p + 3 * n) n =
      count b p (4 * n) := by
  rw [show 4 * n = n + n + n + n by omega, count_add, count_add, count_add]
  simp only [Int.natCast_add]
  rw [show p + ((n : Int) + n) = p + 2 * n by omega, show p + ((n : Int) + n + n) = p + 3 * n by omega]

theorem res_eq_iff {res : BitVec 32} {c : Nat} (h : popcount res = c * 2 ^ sh.shift) :
    res = -1#32 ↔ c = 4 * sh.lanes := by
  rw [← popcount_eq_32, h, ← sh.bytes]
  exact Nat.mul_left_inj (Nat.two_pow_pos sh.shift).ne'

theorem res_div {res : BitVec 32} {c : Nat} (h : popcount res = c * 2 ^ sh.shift) :
    popcount res / 2 ^ sh.shift = c := by
  rw [h, Nat.mul_div_cancel _ (Nat.two_pow_pos sh.shift)]

variable {keys : Window (BitVec w)} {probe : Int → Option Bool} {before : BitVec w → Bool}
  {moveIt : Int}

theorem lanes_pos (sh : Shape w) : 0 < sh.lanes := by
  have h := sh.bytes
  by_contra hzero
  rw [show sh.lanes = 0 by omega] at h
  simp at h

theorem scanForward_spec
    (h : Probes probe (fun i => before (keys.keyAt i)) keys.first keys.last)
    (hcmp : ∀ x : Nat → BitVec w, cmp (ofLanes x) (set1 key) = mask w fun i => before (x i))
    (hmove : Encloses (fun i => before (keys.keyAt i)) keys.first keys.last moveIt keys.last)
    (hle : moveIt ≤ keys.last) :
    Returns (scanForward sh keys.read cmp key (LinearSearch.search probe) moveIt keys.last)
      (Cut (fun i => before (keys.keyAt i)) keys.first keys.last) := by
  have htail : ∀ it, Encloses (fun i => before (keys.keyAt i)) keys.first keys.last it keys.last →
      it ≤ keys.last → Returns (LinearSearch.search probe it keys.last it)
        (Cut (fun i => before (keys.keyAt i)) keys.first keys.last) := fun it hit hlast =>
    (LinearSearch.search_spec (h.restrict hit.first_le le_rfl) le_rfl hlast).mono fun p hp =>
      h.widen hit hp
  have hlanes := lanes_pos sh
  unfold scanForward
  simp only
  split
  · refine Returns.untilDone (I := fun s => Encloses (fun i => before (keys.keyAt i)) keys.first
      keys.last s.moveIt keys.last ∧ s.moveIt ≤ keys.last ∧
        (s.i : Int) = s.moveIt - moveIt + 4 * sh.lanes)
      (fun s => (keys.last - s.moveIt).toNat) ?_ ?_
    · rintro s ⟨hit, hlast, hi⟩
      have hfirst := hit.first_le
      split
      · next hn =>
        have hblock : s.moveIt + (4 * sh.lanes : Nat) ≤ keys.last := by omega
        refine (compareBlock_spec hcmp (fun i h1 h2 => keys.read_eq (by omega) (by omega))
          (fun i h1 h2 => keys.read_eq (by omega) (by omega))
          (fun i h1 h2 => keys.read_eq (by omega) (by omega))
          (fun i h1 h2 => keys.read_eq (by omega) (by omega))).bind fun res hres => ?_
        rw [count_block] at hres
        have hcut := cut_count (h.restrict hfirst hblock)
        have hcutle := hcut.le_last
        split
        · next hne =>
          have hlt : count (fun i => before (keys.keyAt i)) s.moveIt (4 * sh.lanes) ≠ 4 * sh.lanes :=
            fun heq => hne ((res_eq_iff hres).mpr heq)
          have hpos : s.moveIt + 4 * sh.lanes - (4 * sh.lanes - (popcount res / 2 ^ sh.shift : Nat)) =
              s.moveIt + count (fun i => before (keys.keyAt i)) s.moveIt (4 * sh.lanes) := by
            rw [res_div hres]
            omega
          rw [hpos]
          exact Returns.some_iff.mpr (h.cut (hit.trans (.of_cut_lt hcut (by omega) hblock)))
        · next heq =>
          have hfull := (res_eq_iff hres).mp (not_not.mp heq)
          refine Returns.some_iff.mpr ⟨⟨hit.trans ⟨by simp only; omega, le_rfl, fun _ => ?_,
            fun hlt => absurd hlt (lt_irrefl _)⟩, ?_, ?_⟩, ?_⟩
          · exact hcut.below _ (by simp only; omega) (by simp only; omega)
          all_goals simp only
          all_goals omega
      · next hn => exact (htail s.moveIt hit hlast).map fun p hp => hp
    · exact ⟨hmove, hle, by simp only; omega⟩
  · exact htail moveIt hmove hle

theorem scanBackward_spec
    (h : Probes probe (fun i => before (keys.keyAt i)) keys.first keys.last)
    (hcmp : ∀ x : Nat → BitVec w, cmp (ofLanes x) (set1 key) = mask w fun i => !before (x i))
    (hmove : Encloses (fun i => before (keys.keyAt i)) keys.first keys.last keys.first moveIt)
    (hle : keys.first ≤ moveIt) :
    Returns (scanBackward sh keys.read cmp key (LinearSearch.search probe) moveIt keys.first)
      (Cut (fun i => before (keys.keyAt i)) keys.first keys.last) := by
  have htail : ∀ it, Encloses (fun i => before (keys.keyAt i)) keys.first keys.last keys.first it →
      keys.first ≤ it → Returns (LinearSearch.search probe keys.first it it)
        (Cut (fun i => before (keys.keyAt i)) keys.first keys.last) := fun it hit hfirst =>
    (LinearSearch.search_spec (h.restrict le_rfl hit.le_last) hfirst le_rfl).mono fun p hp =>
      h.widen hit hp
  have hlanes := lanes_pos sh
  unfold scanBackward
  simp only
  split
  · refine Returns.untilDone (I := fun s => Encloses (fun i => before (keys.keyAt i)) keys.first
      keys.last keys.first s.moveIt ∧ keys.first ≤ s.moveIt ∧
        (s.i : Int) = moveIt - s.moveIt + 4 * sh.lanes)
      (fun s => (s.moveIt - keys.first).toNat) ?_ ?_
    · rintro s ⟨hit, hfirst, hi⟩
      have hlast := hit.le_last
      split
      · next hn =>
        obtain ⟨p, hp⟩ : ∃ p, p = s.moveIt - 4 * sh.lanes := ⟨_, rfl⟩
        have hblock : keys.first ≤ p := by omega
        refine (compareBlock_spec (g := fun k => !before k) hcmp
          (fun i h1 h2 => keys.read_eq (by omega) (by omega))
          (fun i h1 h2 => keys.read_eq (by omega) (by omega))
          (fun i h1 h2 => keys.read_eq (by omega) (by omega))
          (fun i h1 h2 => keys.read_eq (by omega) (by omega))).bind fun res hres => ?_
        -- The vectors are taken from the last to the first.
        have hcount := count_block (fun i => !before (keys.keyAt i)) p sh.lanes
        rw [show p + sh.lanes = s.moveIt - 3 * sh.lanes by omega,
          show p + 2 * sh.lanes = s.moveIt - 2 * sh.lanes by omega,
          show p + 3 * sh.lanes = s.moveIt - sh.lanes by omega] at hcount
        rw [← hp, show ∀ a b c d : Nat, a + b + c + d = d + c + b + a by omega, hcount] at hres
        have hnot := count_not (fun i => before (keys.keyAt i)) p (4 * sh.lanes)
        have hend : p + (4 * sh.lanes : Nat) = s.moveIt := by omega
        have hcut := cut_count (h.restrict hblock (hend.trans_le hlast))
        rw [hend] at hcut
        split
        · next hne =>
          have hlt : count (fun i => !before (keys.keyAt i)) p (4 * sh.lanes) ≠ 4 * sh.lanes :=
            fun heq => hne ((res_eq_iff hres).mpr heq)
          have hpos : s.moveIt - 4 * sh.lanes + (4 * sh.lanes - (popcount res / 2 ^ sh.shift : Nat)) =
              p + count (fun i => before (keys.keyAt i)) p (4 * sh.lanes) := by
            rw [res_div hres]
            omega
          rw [hpos]
          exact Returns.some_iff.mpr (h.cut (hit.trans (.of_cut_gt hcut (by omega) hblock)))
        · next heq =>
          have hfull := (res_eq_iff hres).mp (not_not.mp heq)
          refine Returns.some_iff.mpr ⟨⟨?_, ?_, ?_⟩, ?_⟩
          · refine hit.trans (.upTo (fun _ => hcut.above _ ?_ ?_) ?_)
            all_goals simp only
            all_goals omega
          all_goals simp only
          all_goals omega
      · next hn => exact (htail s.moveIt hit hfirst).map fun p hp => hp
    · exact ⟨hmove, hle, by simp only; omega⟩
  · exact htail moveIt hmove hle

variable (before) in
theorem search_spec {cmpForward cmpBackward : M256 → M256 → M256} {start : Int}
    (h : Probes probe (fun i => before (keys.keyAt i)) keys.first keys.last)
    (hforward : ∀ x : Nat → BitVec w,
      cmpForward (ofLanes x) (set1 key) = mask w fun i => before (x i))
    (hbackward : ∀ x : Nat → BitVec w,
      cmpBackward (ofLanes x) (set1 key) = mask w fun i => !before (x i))
    (hfirst : keys.first ≤ start) (hlast : start ≤ keys.last) :
    Returns (search sh keys.read key probe cmpForward cmpBackward keys.first keys.last start)
      (Cut (fun i => before (keys.keyAt i)) keys.first keys.last) := by
  unfold search
  split
  · next heq =>
    refine Returns.some_iff.mpr (h.cut ⟨le_rfl, heq.le, fun hlt => absurd hlt (lt_irrefl _),
      fun hlt => absurd heq hlt.ne⟩)
  · refine (testStart_spec h hfirst hlast).bind fun b hb => ?_
    cases b with
    | true =>
      obtain ⟨hlt, hbefore⟩ := hb.1 rfl
      exact scanForward_spec h hforward (.behind hbefore hfirst) hlt
    | false => exact scanBackward_spec h hbackward (.upTo (hb.2 rfl) hlast) hfirst

end Blocks

def lowerBoundU32 (read : Int → Option (BitVec 32)) (first last : Int) (key : BitVec 32)
    (start : Int) : Option Int :=
  search uint32 read key (lessProbe read key) cmpltEpu32 cmpgeEpu32 first last start

def upperBoundU32 (read : Int → Option (BitVec 32)) (first last : Int) (key : BitVec 32)
    (start : Int) : Option Int :=
  search uint32 read key (notGreaterProbe read key) cmpleEpu32 cmpgtEpu32 first last start

def lowerBoundU64 (read : Int → Option (BitVec 64)) (first last : Int) (key : BitVec 64)
    (start : Int) : Option Int :=
  search uint64 read key (lessProbe read key) cmpltEpu64 cmpgeEpu64 first last start

def upperBoundU64 (read : Int → Option (BitVec 64)) (first last : Int) (key : BitVec 64)
    (start : Int) : Option Int :=
  search uint64 read key (notGreaterProbe read key) cmpleEpu64 cmpgtEpu64 first last start

section Exact

variable {start : Int}

theorem lowerBoundU32_spec (keys : Window (BitVec 32)) (key : BitVec 32)
    (hfirst : keys.first ≤ start) (hlast : start ≤ keys.last) :
    Returns (lowerBoundU32 keys.read keys.first keys.last key start) (keys.IsLowerBound key) := by
  have hforward : ∀ x : Nat → BitVec 32, cmpltEpu32 (ofLanes x) (set1 key) =
      mask 32 fun i => decide (x i < key) := fun x => cmpltEpu32_lanes x fun _ => key
  have hbackward : ∀ x : Nat → BitVec 32, cmpgeEpu32 (ofLanes x) (set1 key) =
      mask 32 fun i => !decide (x i < key) := fun x =>
    (cmpgeEpu32_lanes x fun _ => key).trans (by simp only [← decide_not, not_lt])
  apply Returns.mono (search_spec (fun k => decide (k < key)) (keys.probes_less key) hforward
    hbackward hfirst hlast)
  intro p hp
  exact Window.isLowerBound_of_cut hp

theorem upperBoundU32_spec (keys : Window (BitVec 32)) (key : BitVec 32)
    (hfirst : keys.first ≤ start) (hlast : start ≤ keys.last) :
    Returns (upperBoundU32 keys.read keys.first keys.last key start) (keys.IsUpperBound key) := by
  have hforward : ∀ x : Nat → BitVec 32, cmpleEpu32 (ofLanes x) (set1 key) =
      mask 32 fun i => !decide (key < x i) := fun x =>
    (cmpleEpu32_lanes x fun _ => key).trans (by simp only [← decide_not, not_lt])
  have hbackward : ∀ x : Nat → BitVec 32, cmpgtEpu32 (ofLanes x) (set1 key) =
      mask 32 fun i => !!decide (key < x i) := fun x =>
    (cmpgtEpu32_lanes x fun _ => key).trans (by simp only [Bool.not_not])
  apply Returns.mono (search_spec (fun k => !decide (key < k)) (keys.probes_notGreater key) hforward
    hbackward hfirst hlast)
  intro p hp
  exact Window.isUpperBound_of_cut hp

theorem lowerBoundU64_spec (keys : Window (BitVec 64)) (key : BitVec 64)
    (hfirst : keys.first ≤ start) (hlast : start ≤ keys.last) :
    Returns (lowerBoundU64 keys.read keys.first keys.last key start) (keys.IsLowerBound key) := by
  have hforward : ∀ x : Nat → BitVec 64, cmpltEpu64 (ofLanes x) (set1 key) =
      mask 64 fun i => decide (x i < key) := fun x => cmpltEpu64_lanes x fun _ => key
  have hbackward : ∀ x : Nat → BitVec 64, cmpgeEpu64 (ofLanes x) (set1 key) =
      mask 64 fun i => !decide (x i < key) := fun x =>
    (cmpgeEpu64_lanes x fun _ => key).trans (by simp only [← decide_not, not_lt])
  apply Returns.mono (search_spec (fun k => decide (k < key)) (keys.probes_less key) hforward
    hbackward hfirst hlast)
  intro p hp
  exact Window.isLowerBound_of_cut hp

theorem upperBoundU64_spec (keys : Window (BitVec 64)) (key : BitVec 64)
    (hfirst : keys.first ≤ start) (hlast : start ≤ keys.last) :
    Returns (upperBoundU64 keys.read keys.first keys.last key start) (keys.IsUpperBound key) := by
  have hforward : ∀ x : Nat → BitVec 64, cmpleEpu64 (ofLanes x) (set1 key) =
      mask 64 fun i => !decide (key < x i) := fun x =>
    (cmpleEpu64_lanes x fun _ => key).trans (by simp only [← decide_not, not_lt])
  have hbackward : ∀ x : Nat → BitVec 64, cmpgtEpu64 (ofLanes x) (set1 key) =
      mask 64 fun i => !!decide (key < x i) := fun x =>
    (cmpgtEpu64_lanes x fun _ => key).trans (by simp only [Bool.not_not])
  apply Returns.mono (search_spec (fun k => !decide (key < k)) (keys.probes_notGreater key) hforward
    hbackward hfirst hlast)
  intro p hp
  exact Window.isUpperBound_of_cut hp

/-- For both key types, from any start in the range, the searches in blocks return what the
scalar ones do, and no load leaves the range. -/
theorem agrees_with_linear :
    (∀ (keys : Window (BitVec 32)) (key : BitVec 32) (start : Int), keys.first ≤ start →
      start ≤ keys.last →
      (∃ p, lowerBoundU32 keys.read keys.first keys.last key start = some p ∧
        LinearSearch.lowerBound keys.read keys.first keys.last key start = some p) ∧
      ∃ p, upperBoundU32 keys.read keys.first keys.last key start = some p ∧
        LinearSearch.upperBound keys.read keys.first keys.last key start = some p) ∧
    ∀ (keys : Window (BitVec 64)) (key : BitVec 64) (start : Int), keys.first ≤ start →
      start ≤ keys.last →
      (∃ p, lowerBoundU64 keys.read keys.first keys.last key start = some p ∧
        LinearSearch.lowerBound keys.read keys.first keys.last key start = some p) ∧
      ∃ p, upperBoundU64 keys.read keys.first keys.last key start = some p ∧
        LinearSearch.upperBound keys.read keys.first keys.last key start = some p := by
  constructor
  · intro keys key start hfirst hlast
    exact ⟨IsFirst.agree (lowerBoundU32_spec keys key hfirst hlast)
        (LinearSearch.lowerBound_spec keys key hfirst hlast),
      IsFirst.agree (upperBoundU32_spec keys key hfirst hlast)
        (LinearSearch.upperBound_spec keys key hfirst hlast)⟩
  · intro keys key start hfirst hlast
    exact ⟨IsFirst.agree (lowerBoundU64_spec keys key hfirst hlast)
        (LinearSearch.lowerBound_spec keys key hfirst hlast),
      IsFirst.agree (upperBoundU64_spec keys key hfirst hlast)
        (LinearSearch.upperBound_spec keys key hfirst hlast)⟩

/-- Two blocks of 32 keys and a rest; the keys come in pairs. -/
def pairsU32 : Window (BitVec 32) where
  first := 0
  last := 70
  keyAt i := BitVec.ofNat 32 (i / 2).toNat
  first_le_last := by decide
  sorted i j hi hij hj := by
    simp only [BitVec.le_def, BitVec.toNat_ofNat]
    omega

def pairsU64 : Window (BitVec 64) where
  first := 0
  last := 70
  keyAt i := BitVec.ofNat 64 (i / 2).toNat
  first_le_last := by decide
  sorted i j hi hij hj := by
    simp only [BitVec.le_def, BitVec.toNat_ofNat]
    omega

theorem agrees_with_linear_pairs :
    ((∃ p, lowerBoundU32 pairsU32.read 0 70 7 69 = some p ∧
        LinearSearch.lowerBound pairsU32.read 0 70 7 69 = some p) ∧
      ∃ p, upperBoundU32 pairsU32.read 0 70 7 69 = some p ∧
        LinearSearch.upperBound pairsU32.read 0 70 7 69 = some p) ∧
    (∃ p, lowerBoundU64 pairsU64.read 0 70 7 69 = some p ∧
        LinearSearch.lowerBound pairsU64.read 0 70 7 69 = some p) ∧
      ∃ p, upperBoundU64 pairsU64.read 0 70 7 69 = some p ∧
        LinearSearch.upperBound pairsU64.read 0 70 7 69 = some p :=
  ⟨agrees_with_linear.1 pairsU32 7 69 (by decide) (by decide),
    agrees_with_linear.2 pairsU64 7 69 (by decide) (by decide)⟩

end Exact

end LinearAvx

end LearnedIndex.Searches
