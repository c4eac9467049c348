import Mathlib.Data.List.Sort
import Mathlib.Data.List.SplitBy
import Mathlib.Data.List.TakeWhile

/-! Lists in ascending key order: lower bounds, intervals and insertion. -/

universe u v

namespace LearnedIndex.SortedList

variable {α : Type u} {K : Type v} [LinearOrder K] {key : α → K} {xs : List α} {lo hi : K}

/-- Ascending keys, repetitions allowed. -/
abbrev Sorted (key : α → K) (xs : List α) : Prop := xs.Pairwise fun x y => key x ≤ key y

/-- The range from `std::lower_bound` to the end. -/
def lowerBound (key : α → K) (lo : K) (xs : List α) : List α :=
  xs.dropWhile fun x => decide (key x < lo)

theorem lowerBound_eq_filter (h : Sorted key xs) :
    lowerBound key lo xs = xs.filter fun x => decide (lo ≤ key x) := by
  induction xs with
  | nil => rfl
  | cons x xs ih =>
    obtain ⟨hx, hxs⟩ := List.pairwise_cons.mp h
    by_cases hlo : key x < lo
    · simpa [lowerBound, hlo, hlo.not_ge] using ih hxs
    · have hall : ∀ y ∈ xs, lo ≤ key y := fun y hy => (not_lt.mp hlo).trans (hx y hy)
      rw [lowerBound, List.dropWhile_cons_of_neg (by simpa using hlo), eq_comm,
        List.filter_eq_self]
      simpa [not_lt.mp hlo] using hall

theorem takeWhile_eq_filter (h : Sorted key xs) :
    xs.takeWhile (fun x => decide (key x ≤ hi)) = xs.filter fun x => decide (key x ≤ hi) := by
  induction xs with
  | nil => rfl
  | cons x xs ih =>
    obtain ⟨hx, hxs⟩ := List.pairwise_cons.mp h
    by_cases hhi : key x ≤ hi
    · simp [hhi, ih hxs]
    · have hall : ∀ y ∈ xs, hi < key y := fun y hy => (not_le.mp hhi).trans_le (hx y hy)
      rw [List.takeWhile_cons_of_neg (by simpa using hhi), eq_comm, List.filter_eq_nil_iff]
      simpa [not_le.mp hhi] using hall

/-- A scan from the lower bound of `lo` while keys are at most `hi` sees exactly the
elements with keys between the two. -/
theorem interval_eq_filter (h : Sorted key xs) :
    (lowerBound key lo xs).takeWhile (fun x => decide (key x ≤ hi)) =
      xs.filter fun x => decide (lo ≤ key x ∧ key x ≤ hi) := by
  rw [lowerBound_eq_filter h, takeWhile_eq_filter (h.sublist List.filter_sublist),
    List.filter_filter]
  simp [Bool.and_comm]

/-- Whether the lower bound of a key is an element with that key. -/
theorem head_lowerBound_iff (h : Sorted key xs) :
    (∃ x, (lowerBound key lo xs).head? = some x ∧ key x = lo) ↔ ∃ x ∈ xs, key x = lo := by
  have hsorted : Sorted key (lowerBound key lo xs) := h.sublist (List.dropWhile_sublist _)
  constructor
  · rintro ⟨x, hx, hk⟩
    exact ⟨x, (List.dropWhile_sublist _).subset (List.mem_of_mem_head? hx), hk⟩
  · rintro ⟨x, hx, hk⟩
    have hmem : x ∈ lowerBound key lo xs := by
      rw [lowerBound_eq_filter h]
      simp [hx, hk]
    cases hl : lowerBound key lo xs with
    | nil => simp [hl] at hmem
    | cons y ys =>
      refine ⟨y, rfl, le_antisymm ?_ ?_⟩
      · rw [hl] at hmem hsorted
        obtain rfl | hy := List.mem_cons.mp hmem
        · exact hk.le
        · exact hk ▸ (List.pairwise_cons.mp hsorted).1 x hy
      · have hy : y ∈ lowerBound key lo xs := hl ▸ List.mem_cons_self
        rw [lowerBound_eq_filter h] at hy
        simpa using (List.mem_filter.mp hy).2

/-- Insertion behind the elements with the same key. -/
def insertUpper (key : α → K) (a : α) (xs : List α) : List α :=
  xs.takeWhile (fun x => decide (key x ≤ key a)) ++
    a :: xs.dropWhile (fun x => decide (key x ≤ key a))

theorem insertUpper_perm (a : α) : (insertUpper key a xs).Perm (a :: xs) := by
  refine List.perm_middle.trans ?_
  rw [List.takeWhile_append_dropWhile]

theorem Sorted.insertUpper (h : Sorted key xs) (a : α) : Sorted key (insertUpper key a xs) := by
  induction xs with
  | nil => simp [SortedList.insertUpper]
  | cons x xs ih =>
    obtain ⟨hx, hxs⟩ := List.pairwise_cons.mp h
    by_cases hle : key x ≤ key a
    · have hcons : SortedList.insertUpper key a (x :: xs) =
          x :: SortedList.insertUpper key a xs := by
        simp [SortedList.insertUpper, hle]
      rw [hcons]
      refine List.pairwise_cons.mpr ⟨fun y hy => ?_, ih hxs⟩
      obtain rfl | hy := List.mem_cons.mp ((insertUpper_perm a).mem_iff.mp hy)
      · exact hle
      · exact hx y hy
    · have hcons : SortedList.insertUpper key a (x :: xs) = a :: x :: xs := by
        simp [SortedList.insertUpper, hle]
      rw [hcons]
      refine List.pairwise_cons.mpr ⟨fun y hy => ?_, h⟩
      obtain rfl | hy := List.mem_cons.mp hy
      · exact (not_le.mp hle).le
      · exact (not_le.mp hle).le.trans (hx y hy)

/-- Insertion in front of the elements with the same key. -/
def insertLower (key : α → K) (a : α) (xs : List α) : List α :=
  xs.takeWhile (fun x => decide (key x < key a)) ++ a :: lowerBound key (key a) xs

theorem insertLower_perm (a : α) : (insertLower key a xs).Perm (a :: xs) := by
  refine List.perm_middle.trans ?_
  rw [lowerBound, List.takeWhile_append_dropWhile]

theorem Sorted.insertLower (h : Sorted key xs) (a : α) : Sorted key (insertLower key a xs) := by
  have hsplit : Sorted key (xs.takeWhile (fun x => decide (key x < key a)) ++ lowerBound key (key a) xs) := by
    rwa [lowerBound, List.takeWhile_append_dropWhile]
  obtain ⟨hbelow, habove, hcross⟩ := List.pairwise_append.mp hsplit
  have hlt : ∀ x ∈ xs.takeWhile (fun x => decide (key x < key a)), key x ≤ key a :=
    fun x hx => le_of_lt (by simpa using List.mem_takeWhile_imp hx)
  have hge : ∀ x ∈ lowerBound key (key a) xs, key a ≤ key x := by
    intro x hx
    rw [lowerBound_eq_filter h] at hx
    exact of_decide_eq_true (List.mem_filter.mp hx).2
  refine List.pairwise_append.mpr ⟨hbelow, List.pairwise_cons.mpr ⟨hge, habove⟩, ?_⟩
  intro x hx y hy
  obtain rfl | hy := List.mem_cons.mp hy
  · exact hlt x hx
  · exact hcross x hx y hy

section InsertLower

variable {a : α} {ys : List α}

/-- The elements below the new one stay in front of it. -/
theorem insertLower_append_left (h : ∀ x ∈ xs, key x < key a) :
    insertLower key a (xs ++ ys) = xs ++ insertLower key a ys := by
  have hall : ∀ x ∈ xs, decide (key x < key a) = true := fun x hx => decide_eq_true (h x hx)
  rw [insertLower, lowerBound, List.takeWhile_append_of_pos hall, List.dropWhile_append_of_pos hall,
    List.append_assoc]
  rfl

/-- What comes behind an element that is not below the new one stays behind. -/
theorem insertLower_append_right (h : ∃ x ∈ xs, key a ≤ key x) :
    insertLower key a (xs ++ ys) = insertLower key a xs ++ ys := by
  induction xs with
  | nil =>
    obtain ⟨x, hx, -⟩ := h
    cases hx
  | cons x xs ih =>
    by_cases hlt : key x < key a
    · have hrest : ∃ x ∈ xs, key a ≤ key x := by
        obtain ⟨y, hy, hle⟩ := h
        obtain rfl | hy := List.mem_cons.mp hy
        · exact absurd hle (not_le.mpr hlt)
        · exact ⟨y, hy, hle⟩
      have hone : ∀ y ∈ [x], key y < key a := fun y hy => List.mem_singleton.mp hy ▸ hlt
      calc
        insertLower key a ([x] ++ (xs ++ ys)) = [x] ++ insertLower key a (xs ++ ys) :=
          insertLower_append_left hone
        _ = [x] ++ insertLower key a xs ++ ys := by rw [ih hrest, List.append_assoc]
        _ = insertLower key a ([x] ++ xs) ++ ys := by rw [insertLower_append_left hone]
    · simp [insertLower, lowerBound, hlt]

theorem getLast?_insertLower (h : ∃ x ∈ xs, key a ≤ key x) :
    (insertLower key a xs).getLast? = xs.getLast? := by
  have hne : lowerBound key (key a) xs ≠ [] := by
    intro hnil
    obtain ⟨x, hx, hle⟩ := h
    have hlt : decide (key x < key a) = true := List.dropWhile_eq_nil_iff.mp hnil x hx
    exact absurd (of_decide_eq_true hlt) (not_lt.mpr hle)
  obtain ⟨y, ys, hys⟩ := List.exists_cons_of_ne_nil hne
  have hxs : xs = xs.takeWhile (fun x => decide (key x < key a)) ++ y :: ys := by
    rw [← hys, lowerBound, List.takeWhile_append_dropWhile]
  rw [insertLower, hys]
  conv_rhs => rw [hxs]
  simp [List.getLast?_append, List.getLast?_cons]

end InsertLower

section Runs

variable {r : List α} {rs : List (List α)} {x y : α}

/-- The runs of elements with the same key. -/
abbrev runsBy (key : α → K) (xs : List α) : List (List α) := xs.splitBy fun x y => key x == key y

theorem key_eq_of_mem_run (h : r ∈ runsBy key xs) (hx : x ∈ r) (hy : y ∈ r) : key x = key y := by
  have hchain : (r.map key).IsChain (· = ·) := by
    rw [List.isChain_map]
    exact (List.isChain_of_mem_splitBy h).imp fun _ _ heq => by simpa using heq
  exact hchain.pairwise.forall_of_forall (fun _ _ => rfl) (List.mem_map_of_mem hx)
    (List.mem_map_of_mem hy)

/-- The keys of a run are below those of the runs behind it. -/
theorem Sorted.run_lt (hxs : Sorted key xs) (h : r :: rs <:+ runsBy key xs) (hx : x ∈ r)
    (hy : y ∈ rs.flatten) : key x < key y := by
  cases rs with
  | nil => simp at hy
  | cons r' rs =>
    have hchain := (List.isChain_getLast_head_splitBy (fun x y => key x == key y) xs).suffix h
    obtain ⟨hr, hr', hne⟩ := (List.isChain_cons_cons.mp hchain).1
    have hsorted : Sorted key (r ++ (r' :: rs).flatten) := by
      obtain ⟨ps, hps⟩ := h
      have hflatten : (runsBy key xs).flatten = xs := List.flatten_splitBy _ _
      refine List.Pairwise.sublist ?_ hxs
      rw [← hflatten, ← hps, List.flatten_append]
      exact List.sublist_append_right _ _
    obtain ⟨-, hrest, hcross⟩ := List.pairwise_append.mp hsorted
    have hhead : r'.head hr' ∈ (r' :: rs).flatten :=
      List.mem_append_left _ (List.head_mem hr')
    have hlast := key_eq_of_mem_run (h.subset List.mem_cons_self) hx (List.getLast_mem hr)
    have hlt : key x < key (r'.head hr') := by
      rw [hlast]
      exact lt_of_le_of_ne (hcross _ (List.getLast_mem hr) _ hhead) (by simpa using hne)
    have hle : key (r'.head hr') ≤ key y := by
      obtain ⟨z, r', rfl⟩ := List.exists_cons_of_ne_nil hr'
      obtain rfl | hy := List.mem_cons.mp hy
      · exact le_rfl
      · exact (List.pairwise_cons.mp hrest).1 y hy
    exact hlt.trans_le hle

end Runs

end LearnedIndex.SortedList
