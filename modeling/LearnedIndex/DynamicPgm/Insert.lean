import LearnedIndex.DynamicPgm.Levels

/-! What one insert does, as long as it does not merge into a level that already holds items. -/

universe u v

namespace LearnedIndex.DynamicPgm

open SortedList

variable {K : Type u} {G : Type v} {ops : Pgm K G} {idx : Index K G}

theorem targetLoop_spec (lv : Index K G) (m n : Nat) :
    ∃ n', n ≤ n' ∧ n' ≤ n + m ∧
      targetLoop lv m (minLevel + 1 + n) (firstLevelMaxSize + 1 + sizeUp lv.getLevel n) =
        (minLevel + 1 + n', firstLevelMaxSize + 1 + sizeUp lv.getLevel n') ∧
      (n' = n + m ∨ firstLevelMaxSize + 1 + sizeUp lv.getLevel n' ≤
        2 ^ (minLevel + 1 + n') - (lv.getLevel (minLevel + 1 + n')).length) ∧
      ∀ l, n ≤ l → l < n' → ¬firstLevelMaxSize + 1 + sizeUp lv.getLevel l ≤
        2 ^ (minLevel + 1 + l) - (lv.getLevel (minLevel + 1 + l)).length := by
  induction m generalizing n with
  | zero => exact ⟨n, le_rfl, by omega, rfl, .inl rfl, by omega⟩
  | succ m ih =>
    unfold targetLoop
    split
    · next hfit => exact ⟨n, le_rfl, by omega, rfl, .inr hfit, by omega⟩
    · next hfull =>
      obtain ⟨n', hle, hle', heq, hstop, hbelow⟩ := ih (n + 1)
      refine ⟨n', by omega, by omega, ?_, ?_, fun l hl hl' => ?_⟩
      · rw [← heq, sizeUp_succ]
        simp only [Nat.add_assoc]
      · exact hstop.imp_left fun h => by omega
      · obtain rfl | hlt := Nat.eq_or_lt_of_le hl
        · exact hfull
        · exact hbelow l hlt hl'

/-- The level that receives a merge is the first in use with room, or the next one. -/
theorem mergeTarget_spec (hused : minLevel + 1 ≤ idx.usedLevels) :
    ∃ n, minLevel + 1 + n ≤ idx.usedLevels ∧
      mergeTarget idx = (minLevel + 1 + n, firstLevelMaxSize + 1 + sizeUp idx.getLevel n) ∧
      (minLevel + 1 + n = idx.usedLevels ∨ firstLevelMaxSize + 1 + sizeUp idx.getLevel n ≤
        2 ^ (minLevel + 1 + n) - (idx.getLevel (minLevel + 1 + n)).length) ∧
      ∀ l < n, ¬firstLevelMaxSize + 1 + sizeUp idx.getLevel l ≤
        2 ^ (minLevel + 1 + l) - (idx.getLevel (minLevel + 1 + l)).length := by
  obtain ⟨n, -, hle, heq, hstop, hbelow⟩ :=
    targetLoop_spec idx (idx.usedLevels - (minLevel + 1)) 0
  refine ⟨n, by omega, heq, ?_, fun l hl => hbelow l (Nat.zero_le _) hl⟩
  exact hstop.imp_left fun h => by omega

section AddLevel

@[simp] theorem addLevel_usedLevels : (addLevel ops idx).usedLevels = idx.usedLevels + 1 := rfl

@[simp] theorem addLevel_data_length : (addLevel ops idx).data.length = idx.data.length + 1 := by
  simp [addLevel]

@[simp] theorem addLevel_getLevel : (addLevel ops idx).getLevel = idx.getLevel := by
  funext i
  simp only [Index.getLevel, addLevel]
  split
  · by_cases hi : i - minLevel < idx.data.length
    · simp [List.getElem?_append_left hi]
    · rw [List.getD_eq_getElem?_getD, List.getD_eq_getElem?_getD,
        List.getElem?_append_right (not_lt.mp hi), List.getElem?_eq_none (not_lt.mp hi)]
      cases i - minLevel - idx.data.length <;> simp
  · rfl

theorem addLevel_getPgm : (addLevel ops idx).getPgm ops = idx.getPgm ops := by
  funext i
  simp only [Index.getPgm, addLevel]
  split
  · by_cases hi : i - minIndexedLevel < idx.pgm.length
    · simp [List.getElem?_append_left hi]
    · rw [List.getD_eq_getElem?_getD, List.getD_eq_getElem?_getD,
        List.getElem?_append_right (not_lt.mp hi), List.getElem?_eq_none (not_lt.mp hi)]
      cases i - minIndexedLevel - idx.pgm.length <;> simp
  · rfl

end AddLevel

variable [LinearOrder K] {x : Item K}

theorem WellFormed.addLevel (h : WellFormed ops idx) : WellFormed ops (addLevel ops idx) := by
  refine ⟨?_, ?_, ?_, ?_, fun i hi => ?_, ?_, ?_, fun i => ?_⟩
  · exact h.used.trans (Nat.le_succ _)
  · have := h.allocated
    simp only [addLevel_usedLevels, addLevel_data_length]
    omega
  · simp
  · have := h.indexed
    simp only [DynamicPgm.addLevel]
    split
    · simp only [List.length_append, List.length_singleton]
      omega
    · omega
  · rw [addLevel_getLevel]
    exact h.unused i (by simp only [addLevel_usedLevels] at hi; omega)
  · simpa using h.sorted
  · simpa using h.alive
  · rw [addLevel_getLevel, addLevel_getPgm]
    exact h.built i

omit [LinearOrder K] in
@[simp] theorem allocate_length (memory : Memory K) (n : Nat) : (allocate memory n).length = n := by
  simp [allocate]

/-- The buffer and the new item are written to the vector that is read first. -/
theorem mergeStart_round (ops : Pgm K G) (memory : Memory K) (idx : Index K G) (n : Nat)
    {first : List (Item K)} {sizeHint : Nat}
    (hfirst : first.length = firstLevelMaxSize + 1) (hsize : first.length ≤ sizeHint) :
    ∃ start, mergeStart memory idx first sizeHint 0 (n % 2) = some start ∧
      Round ops idx first sizeHint (n % 2) 0 start := by
  obtain ⟨tmp, htmp⟩ := overwrite_isSome (hsize.trans (allocate_length memory sizeHint).ge)
  obtain ⟨htmpLen, htake⟩ := take_overwrite htmp
  rw [allocate_length] at htmpLen
  have hround : ∀ tmpA tmpB : List (Item K), tmpA.length = sizeHint → tmpB.length = sizeHint →
      (if (1 + 0) % 2 = n % 2 then tmpA else tmpB).take first.length = first →
      Round ops idx first sizeHint (n % 2) 0 ⟨tmpA, tmpB, 2 ^ (1 + minLevel), idx⟩ := by
    intro tmpA tmpB ha hb hcur
    refine ⟨rfl, rfl, rfl, fun j => ?_, fun j _ _ => rfl, ?_, ha, hb, ?_⟩
    · rw [if_neg (by omega)]
    · exact hfirst.symm
    · rw [hfirst] at hcur
      exact hcur
  unfold mergeStart
  by_cases hcase : n % 2 = 1
  · refine ⟨⟨tmp, allocate memory sizeHint, 2 ^ (1 + minLevel), idx⟩, by simp [hcase, htmp], ?_⟩
    refine hround _ _ htmpLen (allocate_length _ _) ?_
    rw [if_pos (by omega)]
    exact htake
  · refine ⟨⟨allocate memory sizeHint, tmp, 2 ^ (1 + minLevel), idx⟩, by simp [hcase, htmp], ?_⟩
    refine hround _ _ (allocate_length _ _) htmpLen ?_
    rw [if_neg (by omega)]
    exact htake

/-- A merge into an empty level moves everything below it there. -/
theorem pairwiseLogarithmicMerge_spec (memory : Memory K) (hwf : WellFormed ops idx)
    (hx : x.deleted = false) {n : Nat} (hfull : (idx.getLevel minLevel).length = firstLevelMaxSize)
    (hempty : idx.getLevel (minLevel + 1 + n) = []) (hused : minLevel + 1 + n < idx.usedLevels) :
    ∃ idx', pairwiseLogarithmicMerge ops memory idx x (minLevel + n)
        (firstLevelMaxSize + 1 + sizeUp idx.getLevel n) (bufferFront idx x) (bufferBack idx x) =
          some idx' ∧
      idx'.usedLevels = idx.usedLevels ∧
      (∀ j, idx'.getLevel j = if j = minLevel + 1 + n then mergeUp idx.getLevel (extended idx x) n
        else if j < minLevel + 1 + n then [] else idx.getLevel j) ∧
      WellFormed ops idx' := by
  have hdata : minLevel + 1 + n < minLevel + idx.data.length := hused.trans_le hwf.allocated
  have hfirst : (extended idx x).length = firstLevelMaxSize + 1 := by rw [extended_length, hfull]
  have halive : ∀ y ∈ extended idx x, y.deleted = false := fun y hy => by
    obtain rfl | hy := List.mem_cons.mp ((extended_perm idx x).mem_iff.mp hy)
    · exact hx
    · exact hwf.alive _ y hy
  have hsize : (extended idx x).length ≤ firstLevelMaxSize + 1 + sizeUp idx.getLevel n := by omega
  have hsub : minLevel + n - minLevel = n := by omega
  have htarget : minLevel + n + 1 = minLevel + 1 + n := by omega
  obtain ⟨start, hstart, hround⟩ := mergeStart_round ops memory idx n hfirst hsize
  obtain ⟨s, hs, hround⟩ := hround.rounds (n := n) hwf halive (Nat.mod_lt _ (by omega))
    (by rw [hfirst]) (by omega)
  have hcur := hround.current
  rw [if_neg (by omega)] at hcur
  have hmerged : resize memory s.tmpB s.actualSize = mergeUp idx.getLevel (extended idx x) n := by
    have hle : s.actualSize ≤ s.tmpB.length := by
      rw [hround.size, hround.length_b, ← hfirst]
      exact mergeUp_length_le n
    rw [resize, hcur, List.drop_eq_nil_of_le (by rw [allocate_length]; exact hle), List.append_nil]
  have hsdata : minLevel + 1 + n < minLevel + s.index.data.length := by rwa [hround.data_length]
  have hlevels : ∀ j, ((s.index.setLevel minLevel []).setLevel (minLevel + 1 + n)
      (mergeUp idx.getLevel (extended idx x) n)).getLevel j =
        if j = minLevel + 1 + n then mergeUp idx.getLevel (extended idx x) n
        else if j < minLevel + 1 + n then [] else idx.getLevel j := by
    intro j
    rw [Index.getLevel_setLevel (by omega) (by simpa using hsdata),
      Index.getLevel_setLevel le_rfl (by omega), hround.levels]
    split
    · rfl
    · by_cases hmin : j < minLevel
      · have hj : idx.getLevel j = [] := by simp [Index.getLevel, not_le.mpr hmin]
        simp [hj]
      · split
        · rw [if_pos (by omega)]
        · by_cases hj : j < minLevel + 1 + n
          · rw [if_pos ⟨by omega, hj⟩, if_pos hj]
          · rw [if_neg (fun h => hj h.2), if_neg hj]
  refine ⟨((s.index.setLevel minLevel []).setLevel (minLevel + 1 + n)
    (mergeUp idx.getLevel (extended idx x) n)).setPgm (minLevel + 1 + n)
    (ops.build ((mergeUp idx.getLevel (extended idx x) n).map Item.key)), ?_, ?_, ?_, ?_⟩
  · simp only [pairwiseLogarithmicMerge, htarget, hempty, List.length_nil, List.isEmpty_nil,
      if_true, hsub]
    rw [extended] at hstart
    simp [hstart, hs, hmerged]
  · simp [hround.used]
  · intro j
    rw [Index.getLevel_setPgm, hlevels]
  · refine ⟨?_, ?_, ?_, ?_, fun i hi => ?_, fun i => ?_, fun i => ?_, fun i hmin hne => ?_⟩
    · simpa [hround.used] using hwf.used
    · simpa [hround.used, hround.data_length] using hwf.allocated
    · simpa [hround.data_length] using hwf.buffer
    · simpa [hround.used, hround.pgm_length] using hwf.indexed
    · have hi' : idx.usedLevels ≤ i := by simpa [hround.used] using hi
      rw [Index.getLevel_setPgm, hlevels, if_neg (by omega), if_neg (by omega), hwf.unused i hi']
    · rw [Index.getLevel_setPgm, hlevels]
      split
      · exact mergeUp_sorted hwf.sorted (extended_sorted (hwf.sorted minLevel) x) n
      · split
        · exact .nil
        · exact hwf.sorted i
    · rw [Index.getLevel_setPgm, hlevels]
      split
      · exact mergeUp_alive hwf.alive halive n
      · split
        · simp
        · exact hwf.alive i
    · rw [Index.getLevel_setPgm, hlevels] at hne ⊢
      by_cases hi : i = minLevel + 1 + n
      · subst hi
        rw [if_pos rfl]
        refine Index.getPgm_setPgm_self _ hmin ?_
        simp only [Index.setLevel_pgm, hround.pgm_length]
        exact hused.trans_le hwf.indexed
      · rw [if_neg hi] at hne ⊢
        by_cases hlt : i < minLevel + 1 + n
        · exact (hne (if_pos hlt)).elim
        · rw [if_neg hlt] at hne ⊢
          rw [Index.getPgm_setPgm _ hi hmin, Index.getPgm_setLevel, Index.getPgm_setLevel,
            hround.pgms i (by omega) hmin]
          exact hwf.built i hmin hne

variable (ops idx x) in
/-- What an insert that does not merge into a level with items can do. -/
inductive InsertStep (idx' : Index K G) : Prop
  | duplicate (h : isDuplicate idx x = true) (heq : idx' = idx)
  | buffered (h : isDuplicate idx x = false)
      (hroom : (idx.getLevel minLevel).length < firstLevelMaxSize)
      (hused : idx'.usedLevels = max idx.usedLevels (minLevel + 1))
      (hlevels : ∀ j, idx'.getLevel j = if j = minLevel then extended idx x else idx.getLevel j)
  | merged (n : Nat) (h : isDuplicate idx x = false)
      (hfull : (idx.getLevel minLevel).length = firstLevelMaxSize)
      (hinto : mergesInto idx x = some (minLevel + 1 + n)) (hn : minLevel + 1 + n ≤ idx.usedLevels)
      (hused : idx'.usedLevels = max idx.usedLevels (minLevel + 1 + n + 1))
      (hempty : idx.getLevel (minLevel + 1 + n) = [])
      (hlevels : ∀ j, idx'.getLevel j =
        if j = minLevel + 1 + n then mergeUp idx.getLevel (extended idx x) n
        else if j < minLevel + 1 + n then [] else idx.getLevel j)

/-- The buffer never outgrows its capacity. -/
structure Bounded (ops : Pgm K G) (idx : Index K G) : Prop extends WellFormed ops idx where
  buffer_length : (idx.getLevel minLevel).length ≤ firstLevelMaxSize

theorem insert_step (memory : Memory K) (hwf : Bounded ops idx) (hx : x.deleted = false)
    (hsafe : ∀ i, mergesInto idx x = some i → idx.getLevel i = []) :
    ∃ idx', insert ops memory idx x = some idx' ∧ Bounded ops idx' ∧ InsertStep idx x idx' := by
  unfold insert
  cases hdup : isDuplicate idx x with
  | true => exact ⟨idx, rfl, hwf, .duplicate hdup rfl⟩
  | false =>
    have hused := hwf.used
    simp only [Bool.false_eq_true, if_false]
    split
    · next hroom =>
      have hlevels : ∀ j, (idx.setLevel minLevel (extended idx x)).getLevel j =
          if j = minLevel then extended idx x else idx.getLevel j :=
        Index.getLevel_setLevel le_rfl hwf.buffer _
      have hmax : (if idx.usedLevels = minLevel then minLevel + 1 else idx.usedLevels) =
          max idx.usedLevels (minLevel + 1) := by
        split <;> omega
      refine ⟨_, rfl, ⟨⟨?_, ?_, ?_, ?_, fun i hi => ?_, fun i => ?_, fun i => ?_, fun i hmin hne => ?_⟩,
        ?_⟩, .buffered hdup hroom hmax hlevels⟩
      · simp only [hmax]
        omega
      · have := hwf.allocated
        have := hwf.buffer
        simp only [hmax, Index.setLevel_data_length]
        omega
      · simpa using hwf.buffer
      · have := hwf.indexed
        simp only [hmax, Index.setLevel_pgm]
        have : minLevel + 1 ≤ minIndexedLevel := by decide
        omega
      · simp only [hmax] at hi
        exact (hlevels i).trans (by rw [if_neg (by omega), hwf.unused i (by omega)])
      · refine (hlevels i).symm ▸ ?_
        split
        · exact extended_sorted (hwf.sorted minLevel) x
        · exact hwf.sorted i
      · intro y hy
        have hy : y ∈ if i = minLevel then extended idx x else idx.getLevel i := hlevels i ▸ hy
        split at hy
        · obtain rfl | hy := List.mem_cons.mp ((extended_perm idx x).mem_iff.mp hy)
          · exact hx
          · exact hwf.alive _ y hy
        · exact hwf.alive i y hy
      · have hi : i ≠ minLevel := by
          rintro rfl
          exact absurd hmin (by decide)
        have hget := (hlevels i).trans (if_neg hi)
        refine (Index.getPgm_setLevel minLevel i (extended idx x)).trans ?_
        exact (hwf.built i hmin (fun h => hne (hget.trans h))).trans (by rw [← hget]; rfl)
      · refine ((hlevels minLevel).trans (if_pos rfl)).symm ▸ ?_
        rw [extended_length]
        exact hroom
    · next hnroom =>
      have hfull : (idx.getLevel minLevel).length = firstLevelMaxSize :=
        le_antisymm hwf.buffer_length (not_lt.mp hnroom)
      have hused : minLevel + 1 ≤ idx.usedLevels := by
        by_contra hlt
        rw [hwf.unused minLevel (by omega), List.length_nil] at hfull
        exact absurd hfull (by decide)
      obtain ⟨n, hn, htarget, -, -⟩ := mergeTarget_spec hused
      have hinto : mergesInto idx x = some (minLevel + 1 + n) := by
        simp [mergesInto, hdup, hnroom, htarget]
      have hempty := hsafe _ hinto
      have hsub : minLevel + 1 + n - 1 = minLevel + n := by omega
      simp only [htarget, hsub]
      have hbound : ∀ {t : Index K G}, (∀ j, t.getLevel j =
          if j = minLevel + 1 + n then mergeUp idx.getLevel (extended idx x) n
          else if j < minLevel + 1 + n then [] else idx.getLevel j) →
          (t.getLevel minLevel).length ≤ firstLevelMaxSize := by
        intro t ht
        rw [ht, if_neg (by omega), if_pos (by omega)]
        exact Nat.zero_le _
      by_cases hnew : minLevel + 1 + n = idx.usedLevels
      · rw [if_pos hnew]
        have hext : bufferFront (addLevel ops idx) x = bufferFront idx x ∧
            bufferBack (addLevel ops idx) x = bufferBack idx x := by
          simp [bufferFront, bufferBack]
        obtain ⟨idx', hmerge, hused', hlevels, hwf'⟩ :=
          pairwiseLogarithmicMerge_spec memory hwf.toWellFormed.addLevel hx (n := n)
            (by simpa using hfull) (by simpa using hempty) (by simp [hnew])
        simp only [addLevel_getLevel, hext.1, hext.2, extended] at hmerge hlevels
        exact ⟨idx', hmerge, ⟨hwf', hbound hlevels⟩, .merged n hdup hfull hinto hn
          (by rw [hused']; simp [hnew]) hempty hlevels⟩
      · rw [if_neg hnew]
        obtain ⟨idx', hmerge, hused', hlevels, hwf'⟩ :=
          pairwiseLogarithmicMerge_spec memory hwf.toWellFormed hx (n := n) hfull hempty
            (by omega)
        exact ⟨idx', hmerge, ⟨hwf', hbound hlevels⟩, .merged n hdup hfull hinto hn
          (by rw [hused']; omega) hempty hlevels⟩

end LearnedIndex.DynamicPgm
