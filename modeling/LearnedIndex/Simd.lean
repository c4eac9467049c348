import Mathlib.Data.Int.Order.Basic
import Mathlib.Tactic.Ring
import Mathlib.Data.List.Range

/-! 256-bit vectors of lanes, and the vector instructions that compare them, pack the results
and count them. -/

namespace LearnedIndex.Simd

abbrev M256 := BitVec 256

/-- Lane `i` of width `w`. -/
def lane (w : Nat) (v : M256) (i : Nat) : BitVec w := v.extractLsb' (w * i) w

/-- The word with the given bits. -/
def ofBits (n : Nat) (f : Nat → Bool) : BitVec n :=
  (BitVec.ofBoolListLE ((List.range n).map f)).cast (by rw [List.length_map, List.length_range])

/-- The vector with the given lanes. -/
def ofLanes {w : Nat} (f : Nat → BitVec w) : M256 :=
  ofBits 256 fun b => (f (b / w)).getLsbD (b % w)

/-- The vector whose lanes of width `w` are all ones or all zeros. -/
def mask (w : Nat) (f : Nat → Bool) : M256 := ofLanes fun i => BitVec.fill w (f i)

section Intrinsics

variable {w : Nat}

def set1 (a : BitVec w) : M256 := ofLanes fun _ => a

def xor (a b : M256) : M256 := a ^^^ b

def maxEpu32 (a b : M256) : M256 :=
  ofLanes fun i => if lane 32 a i < lane 32 b i then lane 32 b i else lane 32 a i

def cmpeqEpi32 (a b : M256) : M256 := mask 32 fun i => lane 32 a i == lane 32 b i

/-- The comparison is signed. -/
def cmpgtEpi64 (a b : M256) : M256 := mask 64 fun i => (lane 64 b i).slt (lane 64 a i)

/-- The signed value, cut to the range of `v` bits. -/
def saturate (v : Nat) (x : BitVec w) : BitVec v :=
  BitVec.ofInt v (max (-2 ^ (v - 1)) (min (2 ^ (v - 1) - 1) x.toInt))

/-- Packs the lanes, `n` to each half of a vector; the halves of the result are packed from
the same halves of `a` and `b`. -/
def packs (w v n : Nat) (a b : M256) : M256 :=
  ofLanes fun i =>
    saturate v (lane w (if i / n % 2 = 0 then a else b) (n * (i / (2 * n)) + i % n))

def packsEpi32 (a b : M256) : M256 := packs 32 16 4 a b

def packsEpi16 (a b : M256) : M256 := packs 16 8 8 a b

/-- The top bits of the bytes. -/
def movemaskEpi8 (v : M256) : BitVec 32 := ofBits 32 fun i => (lane 8 v i).msb

def popcount (x : BitVec 32) : Nat := (List.range 32).countP x.getLsbD

end Intrinsics

section Lanes

variable {w : Nat}

theorem getLsbD_ofBits {n : Nat} (f : Nat → Bool) {b : Nat} (hb : b < n) :
    (ofBits n f).getLsbD b = f b := by
  rw [ofBits, BitVec.getLsbD_cast, BitVec.getLsbD_ofBoolListLE]
  simp [hb]

theorem getLsbD_ofLanes (f : Nat → BitVec w) {b : Nat} (hb : b < 256) :
    (ofLanes f).getLsbD b = (f (b / w)).getLsbD (b % w) := getLsbD_ofBits _ hb

theorem lane_ofLanes (f : Nat → BitVec w) {i : Nat} (hi : w * (i + 1) ≤ 256) :
    lane w (ofLanes f) i = f i := by
  apply BitVec.eq_of_getLsbD_eq
  intro j hj
  have hw : 0 < w := by omega
  rw [Nat.mul_succ] at hi
  rw [lane, BitVec.getLsbD_extractLsb', getLsbD_ofLanes f (by omega), Nat.mul_add_div hw,
    Nat.div_eq_of_lt hj, Nat.mul_add_mod, Nat.mod_eq_of_lt hj]
  simp [hj]

theorem ofLanes_congr {f g : Nat → BitVec w} (h : ∀ i, w * i < 256 → f i = g i) :
    ofLanes f = ofLanes g := by
  apply BitVec.eq_of_getLsbD_eq
  intro b hb
  rw [getLsbD_ofLanes f hb, getLsbD_ofLanes g hb,
    h (b / w) (lt_of_le_of_lt (Nat.mul_div_le b w) hb)]

theorem getLsbD_mask {f : Nat → Bool} (hw : 0 < w) {b : Nat} (hb : b < 256) :
    (mask w f).getLsbD b = f (b / w) := by
  rw [mask, getLsbD_ofLanes _ hb, BitVec.getLsbD_fill, decide_eq_true (Nat.mod_lt b hw),
    Bool.and_true]

theorem lane_mask {f : Nat → Bool} {i : Nat} (hi : w * (i + 1) ≤ 256) :
    lane w (mask w f) i = BitVec.fill w (f i) := lane_ofLanes _ hi

theorem mask_congr {f g : Nat → Bool} (h : ∀ i, w * i < 256 → f i = g i) : mask w f = mask w g :=
  ofLanes_congr fun i hi => by rw [h i hi]

end Lanes

section Masks

variable {f g : Nat → Bool}

theorem xor_mask {w : Nat} (hw : 0 < w) (f : Nat → Bool) :
    xor (mask w f) (set1 (-1#32)) = mask w fun i => !f i := by
  apply BitVec.eq_of_getLsbD_eq
  intro b hb
  have hones : (set1 (-1#32)).getLsbD b = true := by
    rw [set1, getLsbD_ofLanes _ hb, BitVec.neg_one_eq_allOnes, BitVec.getLsbD_allOnes]
    exact decide_eq_true (Nat.mod_lt b (by decide))
  rw [xor, BitVec.getLsbD_xor, getLsbD_mask hw hb, getLsbD_mask hw hb, hones, Bool.xor_true]

/-- Lanes of 64 bits are read as pairs of lanes of 32 bits. -/
theorem mask_64 (f : Nat → Bool) : mask 64 f = mask 32 fun i => f (i / 2) := by
  apply BitVec.eq_of_getLsbD_eq
  intro b hb
  rw [getLsbD_mask (by decide) hb, getLsbD_mask (by decide) hb, Nat.div_div_eq_div_mul]

theorem saturate_fill {v w : Nat} (hw : 0 < w) (b : Bool) :
    saturate v (BitVec.fill w b) = BitVec.fill v b := by
  have hpow : (1 : Int) ≤ 2 ^ (v - 1) := by exact_mod_cast Nat.one_le_two_pow
  cases b with
  | true =>
    rw [saturate, BitVec.fill_toInt, if_pos (by simp [hw]), min_eq_right (by omega),
      max_eq_right (by omega), BitVec.fill_true, ← BitVec.neg_one_eq_allOnes]
    exact BitVec.neg_ofNat_eq_ofInt_neg.symm
  | false =>
    rw [saturate, BitVec.fill_toInt, if_neg (by simp), min_eq_right (by omega),
      max_eq_right (by omega), BitVec.fill_false]
    exact BitVec.ofInt_ofNat v 0

theorem packs_mask {w v n : Nat} (hw : 0 < w)
    (hn : ∀ i, v * i < 256 → w * (n * (i / (2 * n)) + i % n + 1) ≤ 256) (f g : Nat → Bool) :
    packs w v n (mask w f) (mask w g) = mask v fun i =>
      (if i / n % 2 = 0 then f else g) (n * (i / (2 * n)) + i % n) := by
  apply ofLanes_congr
  intro i hi
  by_cases h : i / n % 2 = 0
  · simp only [if_pos h, lane_mask (hn i hi), saturate_fill hw]
  · simp only [if_neg h, lane_mask (hn i hi), saturate_fill hw]

theorem movemaskEpi8_mask (f : Nat → Bool) : movemaskEpi8 (mask 8 f) = ofBits 32 f := by
  apply BitVec.eq_of_getLsbD_eq
  intro b hb
  rw [movemaskEpi8, getLsbD_ofBits _ hb, getLsbD_ofBits _ hb, lane_mask (by omega), BitVec.msb_fill,
    decide_eq_true (by decide), Bool.and_true]

theorem popcount_ofBits (f : Nat → Bool) : popcount (ofBits 32 f) = (List.range 32).countP f := by
  apply List.countP_congr
  intro b hb
  rw [getLsbD_ofBits f (List.mem_range.mp hb)]

/-- The packs mix the lanes of four vectors, but each ends in one byte. -/
theorem popcount_packs (f₀ f₁ f₂ f₃ : Nat → Bool) :
    popcount (movemaskEpi8 (packsEpi16 (packsEpi32 (mask 32 f₀) (mask 32 f₁))
      (packsEpi32 (mask 32 f₂) (mask 32 f₃)))) =
    (List.range 8).countP f₀ + (List.range 8).countP f₁ + (List.range 8).countP f₂ +
      (List.range 8).countP f₃ := by
  rw [packsEpi16, packsEpi32, packsEpi32, packs_mask (by decide) (by omega),
    packs_mask (by decide) (by omega), packs_mask (by decide) (by omega),
    movemaskEpi8_mask, popcount_ofBits]
  simp only [List.range_succ, List.range_zero, List.nil_append, List.cons_append, List.countP_cons,
    List.countP_nil, Nat.reduceDiv, Nat.reduceMod, Nat.reduceMul, Nat.reduceAdd, Nat.reduceEqDiff,
    if_true, if_false]
  ring

theorem popcount_eq_32 {x : BitVec 32} : popcount x = 32 ↔ x = -1#32 := by
  rw [popcount, BitVec.neg_one_eq_allOnes]
  constructor
  · intro h
    have hall : ∀ b ∈ List.range 32, x.getLsbD b = true :=
      List.countP_eq_length.mp (h.trans (List.length_range).symm)
    apply BitVec.eq_of_getLsbD_eq
    intro b hb
    rw [hall b (List.mem_range.mpr hb), BitVec.getLsbD_allOnes, decide_eq_true hb]
  · intro h
    subst h
    decide

end Masks

section Blocks

/-- How keys lie in vectors, and how much the count of bytes is shifted to count lanes. -/
structure Shape (w : Nat) where
  lanes : Nat
  shift : Nat
  w_mul_lanes : w * lanes = 256
  bytes : 4 * lanes * 2 ^ shift = 32
  count : ∀ f₀ f₁ f₂ f₃ : Nat → Bool,
    popcount (movemaskEpi8 (packsEpi16 (packsEpi32 (mask w f₀) (mask w f₁))
      (packsEpi32 (mask w f₂) (mask w f₃)))) =
    ((List.range lanes).countP f₀ + (List.range lanes).countP f₁ + (List.range lanes).countP f₂ +
      (List.range lanes).countP f₃) * 2 ^ shift

def uint32 : Shape 32 where
  lanes := 8
  shift := 0
  w_mul_lanes := rfl
  bytes := rfl
  count f₀ f₁ f₂ f₃ := by rw [popcount_packs, Nat.pow_zero, Nat.mul_one]

theorem countP_pairs (f : Nat → Bool) :
    (List.range 8).countP (fun i => f (i / 2)) = 2 * (List.range 4).countP f := by
  simp only [List.range_succ, List.range_zero, List.nil_append, List.cons_append, List.countP_cons,
    List.countP_nil, Nat.reduceDiv]
  ring

def uint64 : Shape 64 where
  lanes := 4
  shift := 1
  w_mul_lanes := rfl
  bytes := rfl
  count f₀ f₁ f₂ f₃ := by
    rw [mask_64, mask_64, mask_64, mask_64, popcount_packs, countP_pairs, countP_pairs, countP_pairs,
      countP_pairs]
    omega

end Blocks

end LearnedIndex.Simd
