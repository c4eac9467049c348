import LearnedIndex.DynamicPgm.Merge

/-! What an insert does to the levels: it leaves the index alone, puts the item into the
buffer, or merges the buffer and all levels below the first one with room. -/

universe u v

namespace LearnedIndex.DynamicPgm

open SortedList

variable {K : Type u} {G : Type v} {ops : Pgm K G} {idx : Index K G}

namespace Index

@[simp] theorem setLevel_usedLevels (i : Nat) (level : List (Item K)) :
    (idx.setLevel i level).usedLevels = idx.usedLevels := by
  unfold setLevel; split <;> rfl

@[simp] theorem setLevel_data_length (i : Nat) (level : List (Item K)) :
    (idx.setLevel i level).data.length = idx.data.length := by
  unfold setLevel; split <;> simp

@[simp] theorem setLevel_pgm (i : Nat) (level : List (Item K)) :
    (idx.setLevel i level).pgm = idx.pgm := by
  unfold setLevel; split <;> rfl

@[simp] theorem getPgm_setLevel (i j : Nat) (level : List (Item K)) :
    (idx.setLevel i level).getPgm ops j = idx.getPgm ops j := by
  simp [getPgm]

@[simp] theorem setPgm_usedLevels (i : Nat) (g : G) :
    (idx.setPgm i g).usedLevels = idx.usedLevels := by
  unfold setPgm; split <;> rfl

@[simp] theorem setPgm_data (i : Nat) (g : G) : (idx.setPgm i g).data = idx.data := by
  unfold setPgm; split <;> rfl

@[simp] theorem setPgm_pgm_length (i : Nat) (g : G) :
    (idx.setPgm i g).pgm.length = idx.pgm.length := by
  unfold setPgm; split <;> simp

@[simp] theorem getLevel_setPgm (i j : Nat) (g : G) :
    (idx.setPgm i g).getLevel j = idx.getLevel j := by
  simp [getLevel]

theorem getLevel_setLevel {i : Nat} (hi : minLevel ≤ i) (hlen : i < minLevel + idx.data.length)
    (level : List (Item K)) (j : Nat) :
    (idx.setLevel i level).getLevel j = if j = i then level else idx.getLevel j := by
  by_cases hj : j = i
  · subst hj
    have hlt : j - minLevel < idx.data.length := by omega
    simp [getLevel, setLevel, hi, hlt]
  · by_cases hmin : minLevel ≤ j
    · have hne : i - minLevel ≠ j - minLevel := by omega
      simp [getLevel, setLevel, hi, hj, hmin, List.getD_eq_getElem?_getD, List.getElem?_set_ne hne]
    · simp [getLevel, hj, hmin]

theorem getPgm_setPgm {i j : Nat} (g : G) (hj : j ≠ i) (hmin : minIndexedLevel ≤ j) :
    (idx.setPgm i g).getPgm ops j = idx.getPgm ops j := by
  unfold setPgm
  split
  · have hne : i - minIndexedLevel ≠ j - minIndexedLevel := by omega
    simp [getPgm, List.getD_eq_getElem?_getD, List.getElem?_set_ne hne]
  · rfl

theorem getPgm_setPgm_self {i : Nat} (g : G) (hmin : minIndexedLevel ≤ i)
    (hlen : i < minIndexedLevel + idx.pgm.length) : (idx.setPgm i g).getPgm ops i = g := by
  have hlt : i - minIndexedLevel < idx.pgm.length := by omega
  simp [setPgm, getPgm, hmin, hlt]

end Index

variable [LinearOrder K]

/-- The levels in use exist, are sorted and free of tombstones, and large ones are indexed. -/
structure WellFormed (ops : Pgm K G) (idx : Index K G) : Prop where
  used : minLevel ≤ idx.usedLevels
  allocated : idx.usedLevels ≤ minLevel + idx.data.length
  buffer : minLevel < minLevel + idx.data.length
  indexed : idx.usedLevels ≤ minIndexedLevel + idx.pgm.length
  unused : ∀ i, idx.usedLevels ≤ i → idx.getLevel i = []
  sorted : ∀ i, Sorted Item.key (idx.getLevel i)
  alive : ∀ i, ∀ x ∈ idx.getLevel i, x.deleted = false
  built : ∀ i, minIndexedLevel ≤ i → idx.getLevel i ≠ [] →
    idx.getPgm ops i = ops.build ((idx.getLevel i).map Item.key)

/-- The buffer with the new item in its place. -/
def extended (idx : Index K G) (x : Item K) : List (Item K) :=
  bufferFront idx x ++ x :: bufferBack idx x

theorem bufferFront_append_back (idx : Index K G) (x : Item K) :
    bufferFront idx x ++ bufferBack idx x = idx.getLevel minLevel := List.takeWhile_append_dropWhile

theorem extended_perm (idx : Index K G) (x : Item K) :
    (extended idx x).Perm (x :: idx.getLevel minLevel) := by
  refine List.perm_middle.trans ?_
  rw [bufferFront_append_back]

theorem extended_length (idx : Index K G) (x : Item K) :
    (extended idx x).length = (idx.getLevel minLevel).length + 1 := by
  simpa using (extended_perm idx x).length_eq

theorem extended_sorted (h : Sorted Item.key (idx.getLevel minLevel)) (x : Item K) :
    Sorted Item.key (extended idx x) := by
  have hsorted := h
  rw [← bufferFront_append_back idx x] at hsorted
  obtain ⟨hfront, hback, hall⟩ := List.pairwise_append.mp hsorted
  have hlt : ∀ y ∈ bufferFront idx x, y.key ≤ x.key := fun y hy => by
    have := List.mem_takeWhile_imp hy
    exact (by simpa using this : y.key < x.key).le
  have hge : ∀ y ∈ bufferBack idx x, x.key ≤ y.key := fun y hy => by
    rw [bufferBack, lowerBound_eq_filter h] at hy
    simpa using (List.mem_filter.mp hy).2
  refine List.pairwise_append.mpr ⟨hfront, List.pairwise_cons.mpr ⟨hge, hback⟩, ?_⟩
  intro y hy z hz
  obtain rfl | hz := List.mem_cons.mp hz
  · exact hlt y hy
  · exact hall y hy z hz

theorem lookupIn_extended (idx : Index K G) (x : Item K) (k : K) :
    lookupIn (extended idx x) k =
      if x.key = k then some x else lookupIn (idx.getLevel minLevel) k := by
  have hfront : ∀ y ∈ bufferFront idx x, y.key < x.key := fun y hy => by
    simpa using List.mem_takeWhile_imp hy
  rw [extended, lookupIn_append, lookupIn_cons, ← bufferFront_append_back idx x, lookupIn_append]
  split
  · next hk =>
    rw [lookupIn_eq_none.mpr fun y hy => (hk ▸ hfront y hy).ne, Option.none_or]
  · rfl

section MergeUp

variable {lv : Nat → List (Item K)} {first : List (Item K)}

/-- The first range merged with `n` levels from level 7 on. -/
def mergeUp (lv : Nat → List (Item K)) (first : List (Item K)) (n : Nat) : List (Item K) :=
  (List.range' (minLevel + 1) n).foldl (fun merged i => merge false merged (lv i)) first

/-- The sizes of `n` levels from level 7 on. -/
def sizeUp (lv : Nat → List (Item K)) (n : Nat) : Nat :=
  ((List.range' (minLevel + 1) n).map fun i => (lv i).length).sum

/-- The first of `n` levels from level 7 on that has the key answers. -/
def lookupUp (lv : Nat → List (Item K)) (n : Nat) (k : K) : Option (Item K) :=
  (List.range' (minLevel + 1) n).findSome? fun i => lookupIn (lv i) k

theorem mergeUp_succ (lv : Nat → List (Item K)) (first : List (Item K)) (n : Nat) :
    mergeUp lv first (n + 1) = merge false (mergeUp lv first n) (lv (minLevel + 1 + n)) := by
  simp [mergeUp, List.range'_concat]

omit [LinearOrder K] in
theorem sizeUp_succ (lv : Nat → List (Item K)) (n : Nat) :
    sizeUp lv (n + 1) = sizeUp lv n + (lv (minLevel + 1 + n)).length := by
  simp [sizeUp, List.range'_concat]

theorem mergeUp_length_le (n : Nat) :
    (mergeUp lv first n).length ≤ first.length + sizeUp lv n := by
  induction n with
  | zero => simp [mergeUp, sizeUp]
  | succ n ih =>
    rw [mergeUp_succ, sizeUp_succ]
    have := (merges_merge false (mergeUp lv first n) (lv (minLevel + 1 + n))).length_le
    omega

theorem mergeUp_mem {n : Nat} {z : Item K} (h : z ∈ mergeUp lv first n) :
    z ∈ first ∨ ∃ i, minLevel < i ∧ i < minLevel + 1 + n ∧ z ∈ lv i := by
  induction n with
  | zero => exact .inl h
  | succ n ih =>
    rw [mergeUp_succ] at h
    obtain h | h := (merges_merge _ _ _).mem z h
    · exact (ih h).imp_right fun ⟨i, hi, hn, hz⟩ => ⟨i, hi, by omega, hz⟩
    · exact .inr ⟨minLevel + 1 + n, by omega, by omega, h⟩

theorem mergeUp_alive (hlv : ∀ i, ∀ x ∈ lv i, x.deleted = false)
    (hfirst : ∀ x ∈ first, x.deleted = false) (n : Nat) :
    ∀ x ∈ mergeUp lv first n, x.deleted = false := fun x hx => by
  obtain h | ⟨i, -, -, h⟩ := mergeUp_mem hx
  · exact hfirst x h
  · exact hlv i x h

theorem mergeUp_sorted (hlv : ∀ i, Sorted Item.key (lv i)) (hfirst : Sorted Item.key first)
    (n : Nat) : Sorted Item.key (mergeUp lv first n) := by
  induction n with
  | zero => exact hfirst
  | succ n ih =>
    rw [mergeUp_succ]
    exact (merges_merge _ _ _).sorted ih (hlv _)

theorem lookupIn_mergeUp (hlv : ∀ i, Sorted Item.key (lv i))
    (halive : ∀ i, ∀ x ∈ lv i, x.deleted = false) (hfirst : Sorted Item.key first)
    (hfirstAlive : ∀ x ∈ first, x.deleted = false) (n : Nat) (k : K) :
    lookupIn (mergeUp lv first n) k = (lookupIn first k).or (lookupUp lv n k) := by
  induction n with
  | zero => simp [mergeUp, lookupUp]
  | succ n ih =>
    rw [mergeUp_succ, (merges_merge _ _ _).lookupIn (mergeUp_sorted hlv hfirst n)
      (mergeUp_alive halive hfirstAlive n), ih]
    simp [lookupUp, List.range'_concat, List.findSome?_append, Option.or_assoc]

end MergeUp

section MergeLoop

variable {lv : Nat → List (Item K)} {first : List (Item K)} {sizeHint mod n : Nat}

/-- The merge loop after `n` rounds: the vector to be read next starts with everything
merged so far, and the levels merged are empty. -/
structure Round (ops : Pgm K G) (idx : Index K G) (first : List (Item K)) (sizeHint mod n : Nat)
    (s : MergeState K G) : Prop where
  used : s.index.usedLevels = idx.usedLevels
  data_length : s.index.data.length = idx.data.length
  pgm_length : s.index.pgm.length = idx.pgm.length
  levels : ∀ j, s.index.getLevel j =
    if minLevel < j ∧ j < minLevel + 1 + n then [] else idx.getLevel j
  pgms : ∀ j, minLevel + 1 + n ≤ j → minIndexedLevel ≤ j →
    s.index.getPgm ops j = idx.getPgm ops j
  size : s.actualSize = (mergeUp idx.getLevel first n).length
  length_a : s.tmpA.length = sizeHint
  length_b : s.tmpB.length = sizeHint
  current : (if (1 + n) % 2 = mod then s.tmpA else s.tmpB).take s.actualSize =
    mergeUp idx.getLevel first n

omit [LinearOrder K] in
theorem take_overwrite {dst src out : List (Item K)} (h : overwrite dst src = some out) :
    out.length = dst.length ∧ out.take src.length = src := by
  simp only [overwrite, Option.ite_none_right_eq_some, Option.some.injEq] at h
  obtain ⟨hle, rfl⟩ := h
  constructor
  · simp only [List.length_append, List.length_drop]
    omega
  · simp

omit [LinearOrder K] in
theorem overwrite_isSome {dst src : List (Item K)} (h : src.length ≤ dst.length) :
    ∃ out, overwrite dst src = some out := by
  simp [overwrite, h]

theorem Round.step (hwf : WellFormed ops idx) (hfirst : ∀ x ∈ first, x.deleted = false)
    (hmod : mod < 2) (hsize : first.length + sizeUp idx.getLevel (n + 1) ≤ sizeHint)
    (hlevel : minLevel + 1 + n < minLevel + idx.data.length) {s : MergeState K G}
    (h : Round ops idx first sizeHint mod n s) :
    ∃ s', mergeLevel ops mod s (minLevel + 1 + n) = some s' ∧
      Round ops idx first sizeHint mod (n + 1) s' := by
  have hget : s.index.getLevel (minLevel + 1 + n) = idx.getLevel (minLevel + 1 + n) := by
    rw [h.levels, if_neg (by omega)]
  have hparity : (minLevel + 1 + n - minLevel) % 2 = (1 + n) % 2 := by omega
  have hout : ∀ skip, merge skip (mergeUp idx.getLevel first n) (idx.getLevel (minLevel + 1 + n)) =
      mergeUp idx.getLevel first (n + 1) := fun skip => by
    rw [mergeUp_succ]
    exact merge_eq_of_alive (mergeUp_alive hwf.alive hfirst n)
  have hlen : (mergeUp idx.getLevel first (n + 1)).length ≤ sizeHint :=
    (mergeUp_length_le (n + 1)).trans hsize
  -- What the round does to the index does not depend on the vectors.
  have hindex : ∀ tmpA tmpB, tmpA.length = sizeHint → tmpB.length = sizeHint →
      (if (1 + (n + 1)) % 2 = mod then tmpA else tmpB).take
        (mergeUp idx.getLevel first (n + 1)).length = mergeUp idx.getLevel first (n + 1) →
      Round ops idx first sizeHint mod (n + 1) ⟨tmpA, tmpB,
        (mergeUp idx.getLevel first (n + 1)).length,
        (s.index.setLevel (minLevel + 1 + n) []).setPgm (minLevel + 1 + n) ops.empty⟩ := by
    intro tmpA tmpB ha hb hcur
    refine ⟨?_, ?_, ?_, fun j => ?_, fun j hj hmin => ?_, rfl, ha, hb, hcur⟩
    · simp [h.used]
    · simp [h.data_length]
    · simp [h.pgm_length]
    · rw [Index.getLevel_setPgm,
        Index.getLevel_setLevel (by omega) (by rw [h.data_length]; exact hlevel), h.levels]
      split
      · rw [if_pos (by omega)]
      · split
        · rw [if_pos (by omega)]
        · rw [if_neg (by omega)]
    · rw [Index.getPgm_setPgm _ (by omega) hmin, Index.getPgm_setLevel]
      exact h.pgms j (by omega) hmin
  unfold mergeLevel
  rw [hparity, hget]
  by_cases hcase : (1 + n) % 2 = mod
  · have hcur := h.current
    rw [if_pos hcase] at hcur
    simp only [hcase, if_true, hcur, hout]
    obtain ⟨tmpB, hb⟩ := overwrite_isSome (hlen.trans h.length_b.ge)
    obtain ⟨hblen, hbtake⟩ := take_overwrite hb
    rw [hb]
    refine ⟨_, rfl, hindex _ _ h.length_a (hblen.trans h.length_b) ?_⟩
    rw [if_neg (by omega)]
    exact hbtake
  · have hcur := h.current
    rw [if_neg hcase] at hcur
    simp only [hcase, if_false, hcur, hout]
    obtain ⟨tmpA, ha⟩ := overwrite_isSome (hlen.trans h.length_a.ge)
    obtain ⟨halen, hatake⟩ := take_overwrite ha
    rw [ha]
    refine ⟨_, rfl, hindex _ _ (halen.trans h.length_a) h.length_b ?_⟩
    rw [if_pos (by omega)]
    exact hatake

theorem Round.rounds (hwf : WellFormed ops idx) (hfirst : ∀ x ∈ first, x.deleted = false)
    (hmod : mod < 2) (hsize : first.length + sizeUp idx.getLevel n ≤ sizeHint)
    (hlevel : minLevel + n < minLevel + idx.data.length) {s : MergeState K G}
    (h : Round ops idx first sizeHint mod 0 s) :
    ∃ s', (List.range' (minLevel + 1) n).foldlM (mergeLevel ops mod) s = some s' ∧
      Round ops idx first sizeHint mod n s' := by
  induction n with
  | zero => exact ⟨s, rfl, h⟩
  | succ n ih =>
    have hmono := sizeUp_succ idx.getLevel n
    obtain ⟨mid, hmid, hround⟩ := ih (by omega) (by omega)
    obtain ⟨s', hs', hround'⟩ := hround.step hwf hfirst hmod hsize (by omega)
    refine ⟨s', ?_, hround'⟩
    rw [List.range'_concat, List.foldlM_append, hmid]
    simpa using hs'

end MergeLoop

end LearnedIndex.DynamicPgm
