import LearnedIndex.SortedList

/-! The last-mile searches: a lower bound inside a window, from a hint. -/

universe u v

namespace LearnedIndex

variable {K : Type u} [LinearOrder K]

/-- The number of keys below `key`, the position of its lower bound in a sorted list. -/
def rank (ks : List K) (key : K) : Nat := (ks.takeWhile fun k => decide (k < key)).length

theorem rank_le_length (ks : List K) (key : K) : rank ks key ≤ ks.length :=
  (List.takeWhile_sublist _).length_le

theorem drop_rank_map {α : Type v} (f : α → K) (xs : List α) (key : K) :
    xs.drop (rank (xs.map f) key) = SortedList.lowerBound f key xs := by
  induction xs with
  | nil => rfl
  | cons x xs ih =>
    by_cases h : f x < key
    · simpa [rank, SortedList.lowerBound, h] using ih
    · simp [rank, SortedList.lowerBound, h]

/-- A walk that begins in front of the lower bound ends at it. -/
theorem dropWhile_drop {α : Type v} {f : α → K} {xs : List α} {key : K} {r : Nat} (h : r ≤ rank (xs.map f) key) :
    (xs.drop r).dropWhile (fun x => decide (f x < key)) = SortedList.lowerBound f key xs := by
  induction xs generalizing r with
  | nil => simp [SortedList.lowerBound]
  | cons x xs ih =>
    cases r with
    | zero => rfl
    | succ r =>
      by_cases hlt : f x < key
      · have hrank : rank ((x :: xs).map f) key = rank (xs.map f) key + 1 := by
          simp [rank, hlt]
        have hdrop : SortedList.lowerBound f key (x :: xs) = SortedList.lowerBound f key xs :=
          List.dropWhile_cons_of_pos (decide_eq_true hlt)
        rw [List.drop_succ_cons, hdrop]
        exact ih (by omega)
      · have hrank : rank ((x :: xs).map f) key = 0 := by simp [rank, hlt]
        omega

/-- `less(at(i), key)`. -/
def less (ks : List K) (key : K) (i : Nat) : Bool := ks[i]?.any fun k => decide (k < key)

theorem less_iff {ks : List K} (h : ks.Pairwise (· ≤ ·)) (key : K) (i : Nat) :
    less ks key i = true ↔ i < rank ks key := by
  induction ks generalizing i with
  | nil => simp [less, rank]
  | cons k ks ih =>
    obtain ⟨hk, hks⟩ := List.pairwise_cons.mp h
    by_cases hlt : k < key
    · cases i with
      | zero => simp [less, rank, hlt]
      | succ i => simpa [less, rank, hlt] using ih hks i
    · have hrank : rank (k :: ks) key = 0 := by simp [rank, hlt]
      have hall : ∀ k' ∈ ks, ¬k' < key := fun k' hk' => not_lt.mpr ((not_lt.mp hlt).trans (hk k' hk'))
      cases i with
      | zero => simp [less, hrank, hlt]
      | succ i =>
        simp only [hrank, Nat.not_lt_zero, iff_false, Bool.not_eq_true, less,
          List.getElem?_cons_succ, Option.any_eq_false]
        intro k' hk'
        simpa using hall k' (List.mem_of_getElem? hk')

/-- A search class: on sorted keys, a window and a start inside it, it returns the lower
bound of the window, which is the lower bound of all keys cut off at the window. -/
structure Search (K : Type u) [LinearOrder K] where
  lowerBound : List K → Nat → Nat → K → Nat → Nat
  lowerBound_eq : ∀ {ks first last start key}, ks.Pairwise (· ≤ ·) → first ≤ start →
    start ≤ last → last ≤ ks.length →
    lowerBound ks first last key start = max first (min last (rank ks key))

namespace BranchingBinarySearch

/-- `lower_bound_` on `len` positions from `first` on. -/
def lowerBoundLoop (ks : List K) (key : K) (first len : Nat) : Nat :=
  if h : len = 0 then first
  else
    let half := len / 2
    let middle := first + half
    if less ks key middle then lowerBoundLoop ks key (middle + 1) (len - half - 1)
    else lowerBoundLoop ks key first half
  termination_by len

def lowerBound (ks : List K) (first last : Nat) (key : K) (start : Nat) : Nat :=
  if start ≠ last ∧ less ks key start then lowerBoundLoop ks key (start + 1) (last - (start + 1))
  else lowerBoundLoop ks key first (start - first)

theorem lowerBoundLoop_le (ks : List K) (key : K) (first len : Nat) :
    lowerBoundLoop ks key first len ≤ first + len := by
  induction len using Nat.strong_induction_on generalizing first with
  | _ len ih =>
    unfold lowerBoundLoop
    split
    · exact Nat.le_add_right first len
    · next hne =>
      dsimp only
      split
      · exact (ih _ (by omega) _).trans (by omega)
      · exact (ih _ (by omega) _).trans (by omega)

theorem lowerBoundLoop_eq {ks : List K} (h : ks.Pairwise (· ≤ ·)) (key : K) (first len : Nat) :
    lowerBoundLoop ks key first len = max first (min (first + len) (rank ks key)) := by
  induction len using Nat.strong_induction_on generalizing first with
  | _ len ih =>
    unfold lowerBoundLoop
    split
    · omega
    · next hne =>
      simp only
      split
      · next hless =>
        rw [less_iff h] at hless
        rw [ih _ (by omega)]
        omega
      · next hless =>
        rw [less_iff h] at hless
        rw [ih _ (by omega)]
        omega

/-- The search of `BranchingBinarySearch`. -/
def search : Search K where
  lowerBound := lowerBound
  lowerBound_eq := by
    intro ks first last start key h hfirst hlast hlen
    unfold lowerBound
    split
    · next hless =>
      rw [less_iff h] at hless
      rw [lowerBoundLoop_eq h]
      omega
    · next hless =>
      rw [less_iff h] at hless
      rw [lowerBoundLoop_eq h]
      omega

end BranchingBinarySearch

end LearnedIndex
