import LearnedIndex.Binary64
import LearnedIndex.Workload.Phases
import Mathlib.Algebra.BigOperators.Fin
import Mathlib.Algebra.Order.BigOperators.Group.Finset
import Mathlib.Order.Lattice.Nat

/-! The array `individual_ns`: how much of it the constructor of `Benchmark` allocates, where the
workers of a phase write, and what `DoOps` reads of it afterwards. -/

namespace LearnedIndex.Workload

open Double

instance : Double Binary64 where
  lt a b := a.toRat < b.toRat
  le a b := a.toRat ≤ b.toRat
  trunc a := ⌊a.toRat⌋.toNat

variable {K : Type}

/-- The vectors of operations that were loaded, all of them in one memory. -/
structure Loaded (K : Type) where
  ops : List (List (Operation K))
  size_lt : (ops.map List.length).sum < 2 ^ 64

section Definitions

variable (numBlocks : Nat) (flag : Bool) (bounds : List Nat)

/-- The size of `individual_ns`. -/
def allocated (threads : Nat) : Nat :=
  if 1 < numBlocks then
    (Finset.range (2 * numBlocks)).sup fun j => bounds.getD (j + 1) 0 - bounds.getD j 0
  else
    let insertCnt := if flag then 0 else ∑ i ∈ Finset.range threads, bounds.getD (3 * i + 1) 0
    let totCnt := ∑ i ∈ Finset.range threads, bounds.getD (3 * i + 2) 0
    max insertCnt (totCnt - insertCnt)

def phaseStart (i worker : Nat) : Nat :=
  if 1 < numBlocks then bounds.getD i 0 else bounds.getD (3 * worker + i) 0

def phaseLimit (i worker : Nat) : Nat :=
  if 1 < numBlocks then bounds.getD (i + 1) 0 else bounds.getD (3 * worker + i + 1 + flag.toNat) 0

/-- `exe_cnt` as it is when a worker gets its part of `individual_ns`. -/
def exeCnt (i worker : Nat) : Nat :=
  ∑ w ∈ Finset.range worker, (phaseLimit numBlocks flag bounds i w - phaseStart numBlocks bounds i w)

/-- Where in `individual_ns` a worker writes the time of each of its operations. -/
def writes (i worker : Nat) : List Nat :=
  let start := phaseStart numBlocks bounds i worker
  (List.range' start (phaseLimit numBlocks flag bounds i worker - start)).map fun idx =>
    exeCnt numBlocks flag bounds i worker + (idx - start)

/-- The elements that are the percentiles and the maximum. -/
def statIndexes (D : Type) [Double D] (exeCnt : Nat) : List Nat :=
  [trunc ((exeCnt : D) * 0.5), trunc ((exeCnt : D) * 0.99), trunc ((exeCnt : D) * 0.999),
    sizeSub exeCnt 1]

/-- Workers write apart from each other into what was allocated, and what is read was written. -/
structure InBounds (threads i : Nat) : Prop where
  written : ∀ worker < threads, ∀ k ∈ writes numBlocks flag bounds i worker,
    k < allocated numBlocks flag bounds threads
  apart : ∀ worker < threads, ∀ worker' < threads, worker ≠ worker' →
    List.Disjoint (writes numBlocks flag bounds i worker) (writes numBlocks flag bounds i worker')
  read : ∀ k ∈ statIndexes Binary64 (exeCnt numBlocks flag bounds i threads),
    k < exeCnt numBlocks flag bounds i threads

end Definitions

section Writes

variable {numBlocks : Nat} {flag : Bool} {bounds : List Nat} {i worker worker' k threads : Nat}

theorem phase_eq (os : List (Operation K)) : phase numBlocks flag bounds worker os i =
    (os.take (phaseLimit numBlocks flag bounds i worker)).drop (phaseStart numBlocks bounds i worker) := rfl

theorem exeCnt_succ : exeCnt numBlocks flag bounds i (worker + 1) = exeCnt numBlocks flag bounds i worker +
    (phaseLimit numBlocks flag bounds i worker - phaseStart numBlocks bounds i worker) :=
  Finset.sum_range_succ _ _

theorem exeCnt_mono : Monotone (exeCnt numBlocks flag bounds i) := by
  apply monotone_nat_of_le_succ
  intro worker
  rw [exeCnt_succ]
  exact Nat.le_add_right _ _

theorem mem_writes (h : k ∈ writes numBlocks flag bounds i worker) :
    exeCnt numBlocks flag bounds i worker ≤ k ∧ k < exeCnt numBlocks flag bounds i (worker + 1) := by
  obtain ⟨idx, hidx, rfl⟩ := List.mem_map.mp h
  obtain ⟨hle, hlt⟩ := List.mem_range'_1.mp hidx
  rw [exeCnt_succ]
  omega

theorem writes_lt (hworker : worker < threads) (h : k ∈ writes numBlocks flag bounds i worker) :
    k < exeCnt numBlocks flag bounds i threads :=
  (mem_writes h).2.trans_le (exeCnt_mono hworker)

theorem writes_disjoint (hne : worker ≠ worker') :
    List.Disjoint (writes numBlocks flag bounds i worker) (writes numBlocks flag bounds i worker') := by
  intro k hk hk'
  obtain ⟨hge, hlt⟩ := mem_writes hk
  obtain ⟨hge', hlt'⟩ := mem_writes hk'
  obtain h | h := Nat.lt_or_gt_of_ne hne
  · have hmono : exeCnt numBlocks flag bounds i (worker + 1) ≤ exeCnt numBlocks flag bounds i worker' :=
      exeCnt_mono h
    omega
  · have hmono : exeCnt numBlocks flag bounds i (worker' + 1) ≤ exeCnt numBlocks flag bounds i worker :=
      exeCnt_mono h
    omega

end Writes

section Reads

theorem trunc_mul_lt {mantissa exponent : Nat} {c : ℚ}
    (hc : OfScientific.ofScientific mantissa true exponent = c) (hpos : 0 ≤ c)
    (hlt : c * (1 + 1 / 2 ^ 53) ^ 3 < 1) {n : Nat} (hn : 0 < n) :
    trunc ((n : Binary64) * (OfScientific.ofScientific mantissa true exponent : Binary64)) < n := by
  subst hc
  have hfloor : ⌊((n : Binary64) * Binary64.ofRat (OfScientific.ofScientific mantissa true exponent)).toRat⌋ < (n : ℤ) :=
    Int.floor_lt.mpr (by exact_mod_cast Binary64.mul_lt_of_factor hpos hlt hn)
  exact (Int.toNat_lt_of_ne_zero hn.ne').mpr hfloor

theorem statIndexes_lt_iff {n : Nat} (hn : n < 2 ^ 64) : (∀ k ∈ statIndexes Binary64 n, k < n) ↔ 0 < n := by
  constructor
  · intro h
    have hmax := h (sizeSub n 1) (by simp [statIndexes])
    omega
  · intro hpos k hk
    simp only [statIndexes, List.mem_cons, List.not_mem_nil, or_false] at hk
    obtain h | h | h | h := hk
    · rw [h]
      exact trunc_mul_lt rfl (by norm_num) (by norm_num) hpos
    · rw [h]
      exact trunc_mul_lt rfl (by norm_num) (by norm_num) hpos
    · rw [h]
      exact trunc_mul_lt rfl (by norm_num) (by norm_num) hpos
    · rw [h, sizeSub]
      omega

end Reads

section Bounds

variable {numBlocks i worker : Nat} {flag : Bool} {bounds : List Nat} {ops : List (List (Operation K))}
  {os : List (Operation K)}

/-- The two ways to bounds. -/
theorem boundPoints_cases (h : boundPoints numBlocks flag ops = some bounds) :
    (1 < numBlocks ∧ flag = false ∧ ∃ os, ops = [os] ∧
      bounds = (List.range (2 * numBlocks + 1)).map (blockBound os)) ∨
    (¬1 < numBlocks ∧ bounds = ops.flatMap (threadBounds flag)) := by
  unfold boundPoints at h
  split at h
  case isTrue hn =>
    split at h
    case isTrue => cases h
    case isFalse hsingle =>
      obtain ⟨hlen, hflag⟩ := not_or.mp hsingle
      obtain ⟨os, hos, rfl⟩ := Option.map_eq_some_iff.mp h
      refine .inl ⟨hn, Bool.eq_false_iff.mpr hflag, os, ?_, rfl⟩
      cases ops with
      | nil => cases hos
      | cons os' rest =>
        cases hos
        rw [List.length_cons] at hlen
        have hrest : rest = [] := List.eq_nil_of_length_eq_zero (by omega)
        rw [hrest]
  case isFalse hn => exact .inr ⟨hn, (Option.some.inj h).symm⟩

theorem threadBounds_le (flag : Bool) (os : List (Operation K)) (r : Nat) :
    (threadBounds flag os).getD r 0 ≤ os.length := by
  match r with
  | 0 => exact Nat.zero_le _
  | 1 =>
    cases flag with
    | true => exact Nat.zero_le _
    | false => exact insertEnd_le os
  | 2 => exact Nat.le_refl _
  | _ + 3 => exact Nat.zero_le _

theorem phaseLimit_le (h : boundPoints numBlocks flag ops = some bounds)
    (hi : i < (2 - flag.toNat) * numBlocks) (hos : ops[worker]? = some os) :
    phaseLimit numBlocks flag bounds i worker ≤ os.length := by
  obtain ⟨hn, rfl, os', rfl, rfl⟩ | ⟨hn, rfl⟩ := boundPoints_cases h
  · have hmem : os ∈ [os'] := List.mem_of_getElem? hos
    have hblock : i + 1 ≤ 2 * numBlocks := hi
    rw [List.mem_singleton.mp hmem, phaseLimit, if_pos hn, blockBounds_getD os' hblock]
    exact blockBound_le os' _
  · have hr : i + (1 + flag.toNat) < 3 := by
      cases flag <;> simp only [Bool.toNat_false, Bool.toNat_true] at hi ⊢ <;> nlinarith
    rw [phaseLimit, if_neg hn, Nat.add_assoc, Nat.add_assoc, threadBounds_getD hos hr]
    exact threadBounds_le flag os _

/-- Every phase fits into what was allocated. -/
theorem exeCnt_le_allocated (h : boundPoints numBlocks flag ops = some bounds)
    (hi : i < (2 - flag.toNat) * numBlocks) :
    exeCnt numBlocks flag bounds i ops.length ≤ allocated numBlocks flag bounds ops.length := by
  obtain ⟨hn, rfl, os', rfl, rfl⟩ | ⟨hn, rfl⟩ := boundPoints_cases h
  · rw [allocated, if_pos hn, exeCnt, List.length_singleton, Finset.sum_range_one, phaseLimit,
      phaseStart, if_pos hn, if_pos hn]
    apply Finset.le_sup (f := fun j => List.getD _ (j + 1) 0 - List.getD _ j 0)
    exact Finset.mem_range.mpr hi
  · rw [allocated, if_neg hn, exeCnt]
    simp only [phaseStart, phaseLimit, if_neg hn]
    cases flag with
    | true =>
      -- One phase: everything.
      obtain rfl : i = 0 := by
        simp only [Bool.toNat_true] at hi
        omega
      apply le_trans _ (le_max_right _ _)
      apply Finset.sum_le_sum
      exact fun w _ => Nat.sub_le _ _
    | false =>
      obtain rfl | rfl : i = 0 ∨ i = 1 := by
        simp only [Bool.toNat_false] at hi
        omega
      · -- The inserts.
        apply le_trans _ (le_max_left _ _)
        apply Finset.sum_le_sum
        exact fun w _ => Nat.sub_le _ _
      · -- What is left.
        apply le_trans _ (le_max_right _ _)
        apply le_of_eq
        apply Finset.sum_tsub_distrib
        intro w hw
        have hlt : w < ops.length := Finset.mem_range.mp hw
        have hos := List.getElem?_eq_getElem hlt
        have hlast : (ops.flatMap (threadBounds false)).getD (3 * w + 2) 0 = ops[w].length :=
          threadBounds_getD hos (by decide)
        refine le_of_le_of_eq ?_ hlast.symm
        rw [threadBounds_getD hos (by decide)]
        exact threadBounds_le false _ 1

/-- The operations of a phase are the times that it writes. -/
theorem phase_length (h : boundPoints numBlocks flag ops = some bounds)
    (hi : i < (2 - flag.toNat) * numBlocks) (hos : ops[worker]? = some os) :
    (phase numBlocks flag bounds worker os i).length =
      phaseLimit numBlocks flag bounds i worker - phaseStart numBlocks bounds i worker := by
  rw [phase_eq, List.length_drop, List.length_take, min_eq_left (phaseLimit_le h hi hos)]

theorem exeCnt_lt (loaded : Loaded K) (h : boundPoints numBlocks flag loaded.ops = some bounds)
    (hi : i < (2 - flag.toNat) * numBlocks) :
    exeCnt numBlocks flag bounds i loaded.ops.length < 2 ^ 64 := by
  apply lt_of_le_of_lt _ loaded.size_lt
  rw [exeCnt, Finset.sum_range, ← Fin.sum_univ_fun_getElem]
  apply Finset.sum_le_sum
  intro w _
  exact (Nat.sub_le _ _).trans (phaseLimit_le h hi (List.getElem?_eq_getElem w.isLt))

theorem exeCnt_pos_iff (h : boundPoints numBlocks flag ops = some bounds)
    (hi : i < (2 - flag.toNat) * numBlocks) :
    0 < exeCnt numBlocks flag bounds i ops.length ↔
      ∃ (worker : Nat) (os : List (Operation K)), ops[worker]? = some os ∧
        phase numBlocks flag bounds worker os i ≠ [] := by
  rw [exeCnt, Finset.sum_pos_iff]
  constructor
  · rintro ⟨w, hw, hpos⟩
    have hos := List.getElem?_eq_getElem (Finset.mem_range.mp hw)
    rw [← phase_length h hi hos] at hpos
    exact ⟨w, _, hos, List.ne_nil_of_length_pos hpos⟩
  · rintro ⟨w, os, hos, hne⟩
    have hpos := List.length_pos_of_ne_nil hne
    rw [phase_length h hi hos] at hpos
    exact ⟨w, Finset.mem_range.mpr (List.getElem?_eq_some_iff.mp hos).1, hpos⟩

/-- What is read of an empty phase was never written; everything else is in bounds. -/
theorem latencies_in_bounds_iff (loaded : Loaded K)
    (h : boundPoints numBlocks flag loaded.ops = some bounds) (hi : i < (2 - flag.toNat) * numBlocks) :
    InBounds numBlocks flag bounds loaded.ops.length i ↔
      ∃ (worker : Nat) (os : List (Operation K)), loaded.ops[worker]? = some os ∧
        phase numBlocks flag bounds worker os i ≠ [] := by
  rw [← exeCnt_pos_iff h hi, ← statIndexes_lt_iff (exeCnt_lt loaded h hi)]
  constructor
  · exact fun hbounds => hbounds.read
  · intro hread
    refine ⟨fun worker hworker k hk => ?_, fun _ _ _ _ hne => writes_disjoint hne, hread⟩
    exact (writes_lt hworker hk).trans_le (exeCnt_le_allocated h hi)

/-- A mixed workload of two threads, the second of which has nothing to do. -/
theorem latencies_in_bounds_iff_mixed :
    InBounds 1 true [0, 0, 2, 0, 0, 0] 2 0 ↔ ∃ (worker : Nat) (os : List (Operation Nat)),
      ([[⟨.insert, 5, 0, 2⟩, ⟨.lookup, 5, 0, 0⟩], []] : List (List (Operation Nat)))[worker]? = some os ∧
        phase 1 true [0, 0, 2, 0, 0, 0] worker os 0 ≠ [] :=
  latencies_in_bounds_iff ⟨[[⟨.insert, 5, 0, 2⟩, ⟨.lookup, 5, 0, 0⟩], []], by decide⟩
    (show boundPoints 1 true _ = some [0, 0, 2, 0, 0, 0] from rfl) (show 0 < (2 - true.toNat) * 1 by decide)

/-- One lookup and no insert, in two phases: the first one has no operations. -/
theorem empty_phase_out_of_bounds :
    boundPoints 1 false [[(⟨.lookup, 5, 0, 0⟩ : Operation Nat)]] = some [0, 0, 1] ∧
      0 < (2 - false.toNat) * 1 ∧ exeCnt 1 false [0, 0, 1] 0 1 = 0 ∧
      statIndexes Binary64 0 = [0, 0, 0, 2 ^ 64 - 1] ∧ ¬InBounds 1 false [0, 0, 1] 1 0 := by
  have hindexes : statIndexes Binary64 0 = [0, 0, 0, 2 ^ 64 - 1] := by decide +kernel
  have hcnt : exeCnt 1 false [0, 0, 1] 0 1 = 0 := by decide
  refine ⟨by decide +kernel, by decide, hcnt, hindexes, fun h => ?_⟩
  have hread := h.read 0
  rw [hcnt, hindexes] at hread
  exact absurd (hread List.mem_cons_self) (Nat.lt_irrefl 0)

end Bounds

end LearnedIndex.Workload
