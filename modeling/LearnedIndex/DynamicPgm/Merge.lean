import LearnedIndex.DynamicPgm.Defs

/-! `merge` of two sorted ranges without tombstones: what it keeps, and which of two equal
keys a lookup in the result finds. -/

universe u

namespace LearnedIndex.DynamicPgm

open SortedList

variable {K : Type u} [LinearOrder K]

/-- The run of `merge` that makes `zs` out of `xs` and `ys`. -/
inductive Merges (skipDeleted : Bool) : List (Item K) → List (Item K) → List (Item K) → Prop
  | right (ys) : Merges skipDeleted [] ys ys
  | left (x xs) : Merges skipDeleted (x :: xs) [] (x :: xs)
  | takeRight {x xs y ys zs} (hlt : y.key < x.key) (h : Merges skipDeleted (x :: xs) ys zs) :
      Merges skipDeleted (x :: xs) (y :: ys) (y :: zs)
  | takeLeft {x xs y ys zs} (hlt : x.key < y.key) (h : Merges skipDeleted xs (y :: ys) zs) :
      Merges skipDeleted (x :: xs) (y :: ys) (x :: zs)
  | skip {x xs y ys zs} (heq : x.key = y.key) (hdel : x.deleted = true)
      (h : Merges skipDeleted xs ys zs) : Merges skipDeleted (x :: xs) (y :: ys) zs
  | keep {x xs y ys zs} (heq : x.key = y.key) (h : Merges skipDeleted xs ys zs) :
      Merges skipDeleted (x :: xs) (y :: ys) (x :: zs)

variable {skipDeleted : Bool} {xs ys zs : List (Item K)}

theorem merges_merge (skipDeleted : Bool) (xs ys : List (Item K)) :
    Merges skipDeleted xs ys (merge skipDeleted xs ys) := by
  induction xs generalizing ys with
  | nil => exact .right ys
  | cons x xs ihx =>
    induction ys with
    | nil => exact .left x xs
    | cons y ys ihy =>
      simp only [merge, mergeHead]
      split
      · exact .takeRight ‹_› ihy
      · split
        · exact .takeLeft ‹_› (ihx (y :: ys))
        · have heq : x.key = y.key := le_antisymm (not_lt.mp ‹_›) (not_lt.mp ‹_›)
          split
          · exact .skip heq (by simp_all) (ihx ys)
          · exact .keep heq (ihx ys)

theorem Merges.mem (h : Merges skipDeleted xs ys zs) : ∀ z ∈ zs, z ∈ xs ∨ z ∈ ys := by
  induction h with
  | right | left => simp
  | takeRight _ _ ih | takeLeft _ _ ih | skip _ _ _ ih | keep _ _ ih =>
    intro z hz
    simp only [List.mem_cons] at hz ih ⊢
    grind

theorem Merges.length_le (h : Merges skipDeleted xs ys zs) : zs.length ≤ xs.length + ys.length := by
  induction h with
  | right | left => simp
  | _ => simp only [List.length_cons] at *; omega

theorem Merges.sorted (h : Merges skipDeleted xs ys zs) (hxs : Sorted Item.key xs)
    (hys : Sorted Item.key ys) : Sorted Item.key zs := by
  induction h with
  | right => exact hys
  | left => exact hxs
  | @takeRight x xs y ys zs hlt h ih =>
    obtain ⟨hy, hys⟩ := List.pairwise_cons.mp hys
    obtain ⟨hx, -⟩ := List.pairwise_cons.mp hxs
    refine List.pairwise_cons.mpr ⟨fun z hz => ?_, ih hxs hys⟩
    obtain hz | hz := h.mem z hz
    · obtain rfl | hz := List.mem_cons.mp hz
      · exact hlt.le
      · exact hlt.le.trans (hx z hz)
    · exact hy z hz
  | @takeLeft x xs y ys zs hlt h ih =>
    obtain ⟨hx, hxs⟩ := List.pairwise_cons.mp hxs
    obtain ⟨hy, -⟩ := List.pairwise_cons.mp hys
    refine List.pairwise_cons.mpr ⟨fun z hz => ?_, ih hxs hys⟩
    obtain hz | hz := h.mem z hz
    · exact hx z hz
    · obtain rfl | hz := List.mem_cons.mp hz
      · exact hlt.le
      · exact hlt.le.trans (hy z hz)
  | skip _ _ _ ih => exact ih (List.pairwise_cons.mp hxs).2 (List.pairwise_cons.mp hys).2
  | @keep x xs y ys zs heq h ih =>
    obtain ⟨hx, hxs⟩ := List.pairwise_cons.mp hxs
    obtain ⟨hy, hys⟩ := List.pairwise_cons.mp hys
    refine List.pairwise_cons.mpr ⟨fun z hz => ?_, ih hxs hys⟩
    obtain hz | hz := h.mem z hz
    · exact hx z hz
    · exact heq ▸ hy z hz

/-- The first item of a range with the given key. -/
def lookupIn (xs : List (Item K)) (k : K) : Option (Item K) := xs.find? fun x => x.key = k

@[simp] theorem lookupIn_nil (k : K) : lookupIn ([] : List (Item K)) k = none := rfl

theorem lookupIn_cons (x : Item K) (xs : List (Item K)) (k : K) :
    lookupIn (x :: xs) k = if x.key = k then some x else lookupIn xs k := by
  by_cases h : x.key = k <;> simp [lookupIn, h]

theorem lookupIn_append (xs ys : List (Item K)) (k : K) :
    lookupIn (xs ++ ys) k = (lookupIn xs k).or (lookupIn ys k) := List.find?_append

theorem lookupIn_eq_none {k : K} : lookupIn xs k = none ↔ ∀ x ∈ xs, x.key ≠ k := by
  simp [lookupIn]

theorem lookupIn_eq_none_of_lt {x : Item K} {k : K} (h : Sorted Item.key (x :: xs))
    (hk : k < x.key) : lookupIn (x :: xs) k = none := by
  refine lookupIn_eq_none.mpr fun z hz => ?_
  obtain rfl | hz := List.mem_cons.mp hz
  · exact hk.ne'
  · exact (hk.trans_le ((List.pairwise_cons.mp h).1 z hz)).ne'

/-- A lookup in the merge finds what the first range has, else what the second has. -/
theorem Merges.lookupIn (h : Merges skipDeleted xs ys zs) (hxs : Sorted Item.key xs)
    (halive : ∀ x ∈ xs, x.deleted = false) (k : K) :
    lookupIn zs k = (lookupIn xs k).or (lookupIn ys k) := by
  induction h with
  | right => simp
  | left => simp
  | @takeRight x xs y ys zs hlt h ih =>
    rw [lookupIn_cons, lookupIn_cons y, ih hxs halive]
    split
    · next hk => rw [lookupIn_eq_none_of_lt hxs (hk ▸ hlt), Option.none_or]
    · rfl
  | @takeLeft x xs y ys zs hlt h ih =>
    rw [lookupIn_cons, lookupIn_cons x xs, ih (List.pairwise_cons.mp hxs).2
      (fun z hz => halive z (List.mem_cons_of_mem _ hz))]
    split <;> rfl
  | @skip x xs y ys zs heq hdel h ih =>
    rw [halive x List.mem_cons_self] at hdel
    cases hdel
  | @keep x xs y ys zs heq h ih =>
    rw [lookupIn_cons, lookupIn_cons x xs, lookupIn_cons y ys, ih (List.pairwise_cons.mp hxs).2
      (fun z hz => halive z (List.mem_cons_of_mem _ hz)), heq]
    split <;> rfl

/-- Without tombstones there is nothing to skip. -/
theorem merge_eq_of_alive (halive : ∀ x ∈ xs, x.deleted = false) :
    merge skipDeleted xs ys = merge false xs ys := by
  induction xs generalizing ys with
  | nil => rfl
  | cons x xs ihx =>
    have hx : x.deleted = false := halive x List.mem_cons_self
    have hxs : ∀ z ∈ xs, z.deleted = false := fun z hz => halive z (List.mem_cons_of_mem _ hz)
    induction ys with
    | nil => rfl
    | cons y ys ihy =>
      simp only [merge] at ihy
      simp [merge, mergeHead, hx, ihx hxs, ihy]

/-- A merge of ranges without a common key loses nothing. -/
theorem Merges.perm (h : Merges skipDeleted xs ys zs)
    (hdisj : ∀ x ∈ xs, ∀ y ∈ ys, x.key ≠ y.key) : zs.Perm (xs ++ ys) := by
  induction h with
  | right | left => simp
  | @takeRight x xs y ys zs hlt h ih =>
    have hzs := ih fun a ha b hb => hdisj a ha b (List.mem_cons_of_mem _ hb)
    exact (hzs.cons y).trans List.perm_middle.symm
  | @takeLeft x xs y ys zs hlt h ih =>
    exact (ih fun a ha b hb => hdisj a (List.mem_cons_of_mem _ ha) b hb).cons x
  | skip heq | keep heq => exact (hdisj _ List.mem_cons_self _ List.mem_cons_self heq).elim

theorem lookupIn_lowerBound (h : Sorted Item.key xs) (k : K) :
    ((lowerBound Item.key k xs).head?.filter fun x => x.key = k) = lookupIn xs k := by
  induction xs with
  | nil => rfl
  | cons x xs ih =>
    by_cases hlt : x.key < k
    · simpa [lowerBound, hlt, lookupIn_cons, hlt.ne] using ih (List.pairwise_cons.mp h).2
    · by_cases heq : x.key = k
      · simp [lowerBound, lookupIn_cons, heq]
      · rw [lookupIn_eq_none_of_lt h (lt_of_le_of_ne (not_lt.mp hlt) (Ne.symm heq))]
        simp [lowerBound, hlt, heq]

end LearnedIndex.DynamicPgm
