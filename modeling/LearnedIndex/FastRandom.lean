import LearnedIndex.Workload.Generate
import LearnedIndex.Xorshift

/-! `FastRandom`: its states, and the numbers it draws between two bounds. -/

namespace LearnedIndex.FastRandom

open Xorshift

abbrev Seed := BitVec 64

/-- The new `seed`. -/
def next (seed : Seed) : Seed := xorShl 5 (xorShr 15 (xorShl 13 seed))

/-- `RandUint32()` -/
def randUint32 (seed : Seed) : BitVec 32 × Seed := ((next seed).setWidth 32, next seed)

/-- `RandUint32(inclusive_min, inclusive_max)`; `none` when it divides by zero. -/
def randUint32Between (inclusiveMin inclusiveMax : BitVec 32) (seed : Seed) :
    Option (BitVec 32 × Seed) :=
  let (r, seed) := randUint32 seed
  let width := inclusiveMax - inclusiveMin + 1
  if width = 0 then none else some (inclusiveMin + r % width, seed)

/-- The `offset` that a positive lookup draws from a `data_vec` of this size. -/
def drawOffset (size : BitVec 64) (seed : Seed) : Option (BitVec 64 × Seed) :=
  (randUint32Between 0 ((size - 1).setWidth 32) seed).map fun (r, seed) => (r.setWidth 64, seed)

section States

theorem next_injective : Function.Injective next :=
  (xorShl_injective (by decide)).comp ((xorShr_injective (by decide)).comp (xorShl_injective (by decide)))

theorem next_bijective : Function.Bijective next := Finite.injective_iff_bijective.mp next_injective

theorem next_zero : next 0 = 0 := by decide

/-- Where a state and the next one end in zeros, the first ends in 15 more. -/
theorem lowZero_of_next {seed : Seed} {m n : Nat} (h : LowZero n seed) (hnext : LowZero m (next seed))
    (hle : m ≤ n) (hn : 15 ≤ n) : LowZero (m + 15) seed := by
  have hshr : LowZero m (xorShr 15 (xorShl 13 seed)) := (lowZero_xorShl (by decide)).mp hnext
  have hshl : LowZero n (xorShl 13 seed) := (lowZero_xorShl (by decide)).mpr h
  exact (lowZero_xorShl (by decide)).mp (hshl.of_xorShr hshr hle hn)

/-- Only the state zero draws zero four times in a row. -/
theorem eq_zero_of_draws {seed : Seed} (h : ∀ i < 4, (randUint32 (next^[i] seed)).1 = 0) : seed = 0 := by
  have hlow : ∀ i < 4, LowZero 32 (next^[i + 1] seed) := by
    intro i hi
    rw [Function.iterate_succ_apply']
    exact lowZero_setWidth (h i hi)
  have hstep : ∀ i m n, LowZero n (next^[i] seed) → LowZero m (next^[i + 1] seed) → m ≤ n → 15 ≤ n →
      LowZero (m + 15) (next^[i] seed) := by
    intro i m n hi hsucc hle hn
    rw [Function.iterate_succ_apply'] at hsucc
    exact lowZero_of_next hi hsucc hle hn
  have h₃ := hstep 3 32 32 (hlow 2 (by decide)) (hlow 3 (by decide)) le_rfl (by decide)
  have h₂ := hstep 2 32 32 (hlow 1 (by decide)) (hlow 2 (by decide)) le_rfl (by decide)
  have h₂' := hstep 2 47 47 h₂ h₃ le_rfl (by decide)
  have h₁ := hstep 1 32 32 (hlow 0 (by decide)) (hlow 1 (by decide)) le_rfl (by decide)
  have h₁' := hstep 1 47 47 h₁ h₂ le_rfl (by decide)
  have h₁'' := hstep 1 62 62 h₁' h₂' le_rfl (by decide)
  have hone : next^[1] seed = 0 := h₁''.eq_zero (by decide)
  exact next_injective (hone.trans next_zero.symm)

theorem next_never_absorbed : Function.Bijective next ∧ next 0 = 0 ∧ ∀ seed : Seed, seed ≠ 0 →
    (∀ n, next^[n] seed ≠ 0) ∧ (∃ p > 0, ∀ n, next^[n + p] seed = next^[n] seed) ∧
      ∀ n, ∃ m, n ≤ m ∧ (randUint32 (next^[m] seed)).1 ≠ 0 := by
  refine ⟨next_bijective, next_zero, fun seed hseed => ⟨?_, exists_period next_injective seed, ?_⟩⟩
  · exact iterate_ne next_injective next_zero hseed
  · intro n
    by_contra hzero
    push Not at hzero
    apply iterate_ne next_injective next_zero hseed n
    apply eq_zero_of_draws
    intro i hi
    rw [← Function.iterate_add_apply]
    exact hzero (i + n) (Nat.le_add_left n i)

/-- The seed of the workload generator. -/
theorem next_never_absorbed_generate : (∀ n, next^[n] 42 ≠ 0) ∧
    (∃ p > 0, ∀ n, next^[n + p] 42 = next^[n] 42) ∧
      ∀ n, ∃ m, n ≤ m ∧ (randUint32 (next^[m] 42)).1 ≠ 0 :=
  next_never_absorbed.2.2 42 (by decide)

end States

section Bounds

variable {inclusiveMin inclusiveMax : BitVec 32} {seed : Seed}

/-- The size of an interval wraps around to zero only when it is the whole type. -/
theorem full_interval_iff (hle : inclusiveMin ≤ inclusiveMax) :
    inclusiveMax - inclusiveMin + 1 = 0 ↔ inclusiveMin = 0 ∧ inclusiveMax = BitVec.allOnes 32 := by
  have hmax : (BitVec.allOnes 32).toNat = 2 ^ 32 - 1 := rfl
  constructor
  · intro h
    constructor <;> apply BitVec.eq_of_toNat_eq <;> bv_omega
  · rintro ⟨rfl, rfl⟩
    decide

/-- The draw is always one, and never outside of the bounds. -/
def InRange (inclusiveMin inclusiveMax : BitVec 32) : Prop :=
  ∀ seed, ∃ r seed', randUint32Between inclusiveMin inclusiveMax seed = some (r, seed') ∧
    inclusiveMin ≤ r ∧ r ≤ inclusiveMax

theorem randUint32Between_eq (h : inclusiveMax - inclusiveMin + 1 ≠ 0) (seed : Seed) :
    randUint32Between inclusiveMin inclusiveMax seed =
      some (inclusiveMin + (next seed).setWidth 32 % (inclusiveMax - inclusiveMin + 1), next seed) :=
  if_neg h

theorem randUint32Between_eq_none (h : inclusiveMax - inclusiveMin + 1 = 0) (seed : Seed) :
    randUint32Between inclusiveMin inclusiveMax seed = none := if_pos h

theorem inRange_iff (hle : inclusiveMin ≤ inclusiveMax) :
    InRange inclusiveMin inclusiveMax ↔ ¬(inclusiveMin = 0 ∧ inclusiveMax = BitVec.allOnes 32) := by
  rw [← full_interval_iff hle]
  constructor
  · intro h hzero
    obtain ⟨r, seed', hr, -⟩ := h 0
    rw [randUint32Between_eq_none hzero] at hr
    cases hr
  · intro hne seed
    refine ⟨_, _, randUint32Between_eq hne seed, ?_⟩
    generalize (next seed).setWidth 32 = draw
    have hmod := Nat.mod_lt draw.toNat (y := (inclusiveMax - inclusiveMin + 1).toNat) (by bv_omega)
    have hrem : (draw % (inclusiveMax - inclusiveMin + 1)).toNat =
        draw.toNat % (inclusiveMax - inclusiveMin + 1).toNat := BitVec.toNat_umod
    rw [← hrem] at hmod
    generalize draw % (inclusiveMax - inclusiveMin + 1) = r at hmod
    constructor <;> bv_omega

/-- Every number of the interval is drawn from some state but zero. -/
theorem randUint32Between_reaches {r : BitVec 32} (h : r < inclusiveMax - inclusiveMin + 1) :
    ∃ seed ≠ 0, randUint32Between inclusiveMin inclusiveMax seed = some (inclusiveMin + r, next seed) := by
  obtain ⟨seed, hseed⟩ := next_bijective.surjective (r.setWidth 64 + 4294967296)
  have hne : inclusiveMax - inclusiveMin + 1 ≠ 0 := by bv_omega
  have hlow : (r.setWidth 64 + 4294967296 : BitVec 64).setWidth 32 = r := by bv_omega
  refine ⟨seed, ?_, ?_⟩
  · rintro rfl
    rw [next_zero] at hseed
    bv_omega
  · rw [randUint32Between_eq hne, hseed, hlow, BitVec.umod_eq_of_lt h]

/-- A position of the data is drawn from every state, and every position from some state but zero. -/
structure Covers (size : BitVec 64) : Prop where
  valid : ∀ seed, ∃ offset seed', drawOffset size seed = some (offset, seed') ∧ offset < size
  reached : ∀ i < size, ∃ seed ≠ 0, ∃ seed', drawOffset size seed = some (i, seed')

theorem drawOffset_lt {size offset : BitVec 64} {seed' : Seed}
    (h : drawOffset size seed = some (offset, seed')) : offset < 4294967296 := by
  obtain ⟨⟨r, seed''⟩, -, heq⟩ := Option.map_eq_some_iff.mp h
  simp only [Prod.mk.injEq] at heq
  rw [← heq.1, BitVec.lt_def, BitVec.toNat_setWidth_of_le (by decide)]
  exact r.isLt

theorem interval_eq (size : BitVec 64) : (size - 1).setWidth 32 - 0 + 1 = size.setWidth 32 := by
  bv_omega

theorem drawOffset_eq {size : BitVec 64} (hpos : size ≠ 0) (hlt : size < 4294967296) (seed : Seed) :
    drawOffset size seed = some ((next seed).setWidth 32 % size.setWidth 32 |>.setWidth 64, next seed) := by
  have hne : (size - 1).setWidth 32 - 0 + 1 ≠ 0 := by
    rw [interval_eq]
    bv_omega
  rw [drawOffset, randUint32Between_eq hne, interval_eq, Option.map_some, zero_add]

theorem toNat_offset {size : BitVec 64} (hlt : size < 4294967296) (draw : BitVec 32) :
    (draw % size.setWidth 32 |>.setWidth 64).toNat = draw.toNat % size.toNat := by
  have hsize : (size.setWidth 32).toNat = size.toNat := by
    rw [BitVec.toNat_setWidth]
    bv_omega
  rw [BitVec.toNat_setWidth_of_le (by decide), BitVec.toNat_umod, hsize]

theorem covers_iff {size : BitVec 64} (hpos : size ≠ 0) : Covers size ↔ size < 4294967296 := by
  constructor
  · intro h
    by_contra hge
    by_cases heq : size = 4294967296
    · obtain ⟨offset, seed', hoffset, -⟩ := h.valid 0
      have hzero : (size - 1).setWidth 32 - 0 + 1 = 0 := by
        rw [heq]
        decide
      rw [drawOffset, randUint32Between_eq_none hzero] at hoffset
      cases hoffset
    · -- The position 2^32 is in the data, and more than a draw has bits for.
      obtain ⟨seed, -, seed', hseed⟩ := h.reached 4294967296 (by bv_omega)
      exact absurd (drawOffset_lt hseed) (by decide)
  · intro hlt
    constructor
    · intro seed
      refine ⟨_, _, drawOffset_eq hpos hlt seed, ?_⟩
      rw [BitVec.lt_def, toNat_offset hlt]
      exact Nat.mod_lt _ (by bv_omega)
    · intro i hi
      have hinterval : i.setWidth 32 < (size - 1).setWidth 32 - 0 + 1 := by
        rw [interval_eq]
        bv_omega
      obtain ⟨seed, hne, hseed⟩ := randUint32Between_reaches hinterval
      refine ⟨seed, hne, next seed, ?_⟩
      have hoffset : ((0 + i.setWidth 32).setWidth 64 : BitVec 64) = i := by bv_omega
      rw [drawOffset, hseed, Option.map_some]
      dsimp only
      rw [hoffset]

theorem randUint32Between_total_iff (hle : inclusiveMin ≤ inclusiveMax) {size : BitVec 64}
    (hpos : size ≠ 0) :
    (InRange inclusiveMin inclusiveMax ↔ ¬(inclusiveMin = 0 ∧ inclusiveMax = BitVec.allOnes 32)) ∧
      (Covers size ↔ size < 4294967296) :=
  ⟨inRange_iff hle, covers_iff hpos⟩

/-- A die, and the data of three keys. -/
theorem randUint32Between_total_iff_die : InRange 1 6 ∧ Covers 3 := by
  obtain ⟨hrange, hcovers⟩ := randUint32Between_total_iff (show (1 : BitVec 32) ≤ 6 by decide)
    (show (3 : BitVec 64) ≠ 0 by decide)
  exact ⟨hrange.mpr (by decide), hcovers.mpr (by decide)⟩

/-- All 32-bit numbers, and the data of 2^32 keys. -/
theorem randUint32Between_divides_by_zero :
    randUint32Between 0 4294967295 42 = none ∧ drawOffset 4294967296 42 = none := by
  decide

/-- The draws that the workload generator reads from its tape are those of some state. -/
theorem randUint32_draws {K D : Type} (hi n : Nat) (tape : List (Workload.Draw K D)) :
    (Workload.randUint32 hi : Workload.Gen K D Nat) (.randUint32 n :: tape) = some (n, tape) ↔
      ∃ seed r seed', randUint32Between 0 (BitVec.ofNat 32 hi) seed = some (r, seed') ∧ r.toNat = n := by
  have htape : (Workload.randUint32 hi : Workload.Gen K D Nat) (.randUint32 n :: tape) = some (n, tape) ↔
      hi % 2 ^ 32 ≠ 2 ^ 32 - 1 ∧ n ≤ hi % 2 ^ 32 := by
    simp [Workload.randUint32, Oracle.next]
  rw [htape]
  constructor
  · rintro ⟨hne, hle⟩
    have hlt : BitVec.ofNat 32 n < BitVec.ofNat 32 hi - 0 + 1 := by bv_omega
    obtain ⟨seed, -, hseed⟩ := randUint32Between_reaches hlt
    exact ⟨seed, _, _, hseed, by bv_omega⟩
  · rintro ⟨seed, r, seed', hr, rfl⟩
    have hne : BitVec.ofNat 32 hi - 0 + 1 ≠ 0 := by
      intro hzero
      rw [randUint32Between_eq_none hzero] at hr
      cases hr
    have hle : (0 : BitVec 32) ≤ BitVec.ofNat 32 hi := by bv_omega
    obtain ⟨r', seed'', hr', -, hmax⟩ := (inRange_iff hle).mpr (mt (full_interval_iff hle).mpr hne) seed
    rw [hr] at hr'
    cases hr'
    constructor <;> bv_omega

end Bounds

end LearnedIndex.FastRandom
