import LearnedIndex.Searches.Exponential
import LearnedIndex.Searches.Linear
import Mathlib.Order.Defs.Unbundled

/-! `BranchingBinarySearch` and `LinearSearch` under any `less`, with the keys of a range that is
sorted by it. -/

universe u

namespace LearnedIndex.Searches

variable {K : Type u}

section Definitions

variable (less : K → K → Bool) (read : Int → Option K) (first last : Int) (key : K) (start : Int)

/-- `less(at(i), lookup_key)` -/
def lessBy (i : Int) : Option Bool := (read i).map fun k => less k key

/-- `!less(lookup_key, at(i))` -/
def notGreaterBy (i : Int) : Option Bool := (read i).map fun k => !less key k

namespace LinearSearch

def lowerBoundBy : Option Int := search (lessBy less read key) first last start

def upperBoundBy : Option Int := search (notGreaterBy less read key) first last start

end LinearSearch

namespace BranchingBinarySearch

def lowerBoundBy : Option Int := search (lessBy less read key) first last start

def upperBoundBy : Option Int := search (notGreaterBy less read key) first last start

end BranchingBinarySearch

/-- By default `less` is `<`. -/
theorem lowerBoundBy_lt [LinearOrder K] :
    LinearSearch.lowerBoundBy (fun k k' => decide (k < k')) read first last key start =
      LinearSearch.lowerBound read first last key start := rfl

theorem upperBoundBy_lt [LinearOrder K] :
    LinearSearch.upperBoundBy (fun k k' => decide (k < k')) read first last key start =
      LinearSearch.upperBound read first last key start := rfl

end Definitions

/-- A range `[first, last)` in which no key is less than one before it. -/
structure SortedRange (less : K → K → Bool) where
  first : Int
  last : Int
  keyAt : Int → K
  first_le_last : first ≤ last
  sorted : ∀ i j, first ≤ i → i ≤ j → j < last → less (keyAt j) (keyAt i) = false

variable {less : K → K → Bool} {first last start : Int} {key : K}

/-- What is less than another key is less than a third one, or the third one is less than that. -/
theorem less_or_less (hless : IsStrictWeakOrder K fun k k' => less k k' = true) {a c : K}
    (h : less a c = true) (b : K) : less a b = true ∨ less b c = true := by
  by_contra hnone
  obtain ⟨hab, hbc⟩ := not_or.mp hnone
  have hba : ¬less b a = true := fun hba => hbc (hless.trans b a c hba h)
  have hcb : ¬less c b = true := fun hcb => hab (hless.trans a c b h hcb)
  exact (hless.incomp_trans a b c ⟨hab, hba⟩ ⟨hbc, hcb⟩).1 h

namespace SortedRange

variable (r : SortedRange less)

/-- Reads the key at a position; `none` outside the range. -/
def read (i : Int) : Option K := if r.first ≤ i ∧ i < r.last then some (r.keyAt i) else none

/-- The first position whose key is not less. -/
def IsLowerBound (key : K) (p : Int) : Prop :=
  IsFirst (fun i => less (r.keyAt i) key = false) r.first r.last p

/-- The first position whose key is greater. -/
def IsUpperBound (key : K) (p : Int) : Prop :=
  IsFirst (fun i => less key (r.keyAt i) = true) r.first r.last p

theorem read_eq {i : Int} (hi : r.first ≤ i) (hlt : i < r.last) : r.read i = some (r.keyAt i) :=
  if_pos ⟨hi, hlt⟩

theorem probes_lessBy (hless : IsStrictWeakOrder K fun k k' => less k k' = true) (key : K) :
    Probes (lessBy less r.read key) (fun i => less (r.keyAt i) key) r.first r.last where
  reads i hi hlt := by rw [lessBy, r.read_eq hi hlt, Option.map_some]
  falls i j hi hij hj h := by
    apply (less_or_less hless h (r.keyAt i)).resolve_left
    rw [r.sorted i j hi hij hj]
    exact Bool.false_ne_true

theorem probes_notGreaterBy (hless : IsStrictWeakOrder K fun k k' => less k k' = true) (key : K) :
    Probes (notGreaterBy less r.read key) (fun i => !less key (r.keyAt i)) r.first r.last where
  reads i hi hlt := by rw [notGreaterBy, r.read_eq hi hlt, Option.map_some]
  falls i j hi hij hj h := by
    rw [Bool.not_eq_true'] at h ⊢
    rw [← Bool.not_eq_true]
    intro hgreater
    obtain hj' | hj' := less_or_less hless hgreater (r.keyAt j)
    · exact absurd (h.symm.trans hj') Bool.false_ne_true
    · exact absurd ((r.sorted i j hi hij hj).symm.trans hj') Bool.false_ne_true

variable {r} {p : Int}

theorem isUpperBound_of_cut (h : Cut (fun i => !less key (r.keyAt i)) r.first r.last p) :
    r.IsUpperBound key p := by
  have hfirst := h.isFirst
  simp only [Bool.not_eq_false'] at hfirst
  exact hfirst

end SortedRange

/-- Both searches cut a range in the same place. -/
theorem search_agree {probe : Int → Option Bool} {before : Int → Bool}
    (h : Probes probe before first last) (hfirst : first ≤ start) (hlast : start ≤ last) :
    ∃ p, LinearSearch.search probe first last start = some p ∧
      BranchingBinarySearch.search probe first last start = some p ∧ Cut before first last p := by
  obtain ⟨p, hp, hcut⟩ := LinearSearch.search_spec h hfirst hlast
  obtain ⟨q, hq, hcut'⟩ := BranchingBinarySearch.search_spec h hfirst hlast
  obtain rfl : p = q := hcut.isFirst.unique hcut'.isFirst
  exact ⟨p, hp, hq, hcut⟩

theorem searches_interchangeable (hless : IsStrictWeakOrder K fun k k' => less k k' = true)
    (r : SortedRange less) (key : K) {start : Int} (hfirst : r.first ≤ start) (hlast : start ≤ r.last) :
    (∃ p, LinearSearch.lowerBoundBy less r.read r.first r.last key start = some p ∧
      BranchingBinarySearch.lowerBoundBy less r.read r.first r.last key start = some p ∧
      r.IsLowerBound key p) ∧
    ∃ p, LinearSearch.upperBoundBy less r.read r.first r.last key start = some p ∧
      BranchingBinarySearch.upperBoundBy less r.read r.first r.last key start = some p ∧
      r.IsUpperBound key p := by
  constructor
  · obtain ⟨p, hlinear, hbinary, hcut⟩ := search_agree (r.probes_lessBy hless key) hfirst hlast
    exact ⟨p, hlinear, hbinary, hcut.isFirst⟩
  · obtain ⟨p, hlinear, hbinary, hcut⟩ := search_agree (r.probes_notGreaterBy hless key) hfirst hlast
    exact ⟨p, hlinear, hbinary, SortedRange.isUpperBound_of_cut hcut⟩

/-- Numbers by their tens. -/
def lessTens (k k' : Nat) : Bool := decide (k / 10 < k' / 10)

theorem lessTens_order : IsStrictWeakOrder Nat fun k k' => lessTens k k' = true where
  irrefl k h := by simp [lessTens] at h
  trans k k' k'' h h' := by
    simp only [lessTens, decide_eq_true_eq] at h h' ⊢
    omega
  incomp_trans k k' k'' h h' := by
    simp only [lessTens, decide_eq_true_eq] at h h' ⊢
    omega

/-- The keys `5, 3, 15, 13, 25`. -/
def tensAt (i : Int) : Nat := (10 * (i / 2) + 5 - 2 * (i % 2)).toNat

theorem tensAt_sorted {i j : Int} (hi : 0 ≤ i) (hij : i ≤ j) : lessTens (tensAt j) (tensAt i) = false := by
  rw [lessTens, tensAt, tensAt, decide_eq_false_iff_not]
  omega

theorem zero_le_five : (0 : Int) ≤ 5 := by decide

def tens : SortedRange lessTens where
  first := 0
  last := 5
  keyAt := tensAt
  first_le_last := zero_le_five
  sorted _ _ hi hij _ := tensAt_sorted hi hij

/-- The hint is behind the range. -/
theorem searches_interchangeable_tens :
    (∃ p, LinearSearch.lowerBoundBy lessTens tens.read 0 5 17 5 = some p ∧
      BranchingBinarySearch.lowerBoundBy lessTens tens.read 0 5 17 5 = some p ∧ tens.IsLowerBound 17 p) ∧
    ∃ p, LinearSearch.upperBoundBy lessTens tens.read 0 5 17 5 = some p ∧
      BranchingBinarySearch.upperBoundBy lessTens tens.read 0 5 17 5 = some p ∧ tens.IsUpperBound 17 p :=
  searches_interchangeable lessTens_order tens 17 zero_le_five le_rfl

end LearnedIndex.Searches
