import LearnedIndex.Workload.Replay

/-! How many draws a negative lookup takes.  Its loop counts no retries, as the one for a range
query does. -/

namespace LearnedIndex.Workload

open Util SortedList Oracle Double

variable {K D : Type} [LinearOrder K] {keyType : KeyType K D} {data dataVec : List (KeyValue K)}
  {fs : List D}

/-- The loop ends with the first draw of an absent key. -/
theorem drawNegative_iff (hdata : Sorted KeyValue.key data) {minKey maxKey : K} :
    (∃ k rest, drawNegative keyType data minKey maxKey (fs.map Draw.scaleFactor) = some (k, rest)) ↔
      ∃ f ∈ fs, keyType.scale f minKey maxKey ∉ keys data := by
  induction fs with
  | nil => simp [drawNegative]
  | cons f fs ih =>
    rw [List.map_cons, drawNegative, List.exists_mem_cons_iff, ← isExist_iff hdata]
    by_cases h : isExist data (keyType.scale f minKey maxKey) = true
    · rw [if_pos h, ih]
      simp [h]
    · rw [if_neg h]
      simp [h]

/-- The largest key that is drawn. -/
def KeyType.maxKey (keyType : KeyType K D) (last : K) : K := keyType.cap.elim last (min last)

variable [Double D] {negativeLookupRatio c : D} {op : Operation K}

/-- A lookup that the draw `c` makes a negative one is generated with the draws `fs`. -/
def LookupEnds (keyType : KeyType K D) (negativeLookupRatio : D) (data dataVec : List (KeyValue K))
    (op : Operation K) (c : D) (fs : List D) : Prop :=
  ∃ op' rest, generateLookup keyType negativeLookupRatio data dataVec op
    (.scaleFactor c :: fs.map .scaleFactor) = some (op', rest)

omit [LinearOrder K] in
theorem chooseNegative_eq (hstring : keyType.isString = false)
    (hratio : lt ((0 : Nat) : D) negativeLookupRatio = true) (hc : lt c negativeLookupRatio = true)
    (tape : List (Draw K D)) :
    chooseNegative keyType negativeLookupRatio (.scaleFactor c :: tape) = some (true, tape) := by
  rw [chooseNegative, if_pos ⟨hstring, hratio⟩]
  exact congrArg (fun b => some (b, tape)) hc

theorem lookupEnds_iff (hdata : Sorted KeyValue.key data) (hstring : keyType.isString = false)
    (hratio : lt ((0 : Nat) : D) negativeLookupRatio = true)
    (hc : lt c negativeLookupRatio = true) :
    LookupEnds keyType negativeLookupRatio data dataVec op c fs ↔
      ∃ first last, data.head? = some first ∧ data.getLast? = some last ∧
        ∃ f ∈ fs, keyType.scale f first.key (keyType.maxKey last.key) ∉ keys data := by
  have hchoose := chooseNegative_eq (K := K) hstring hratio hc (fs.map .scaleFactor)
  constructor
  · rintro ⟨op', rest, h⟩
    simp only [generateLookup, bind_eq_some, ofOption_eq_some] at h
    obtain ⟨first, _, ⟨hfirst, rfl⟩, last, _, ⟨hlast, rfl⟩, negative, mid, hneg, h⟩ := h
    obtain ⟨rfl, rfl⟩ := Prod.mk.inj (Option.some.inj (hneg.symm.trans hchoose))
    simp only [if_true, bind_eq_some] at h
    obtain ⟨k, rest', hk, -⟩ := h
    exact ⟨first, last, hfirst, hlast, (drawNegative_iff hdata).mp ⟨k, rest', hk⟩⟩
  · rintro ⟨first, last, hfirst, hlast, habsent⟩
    obtain ⟨k, rest, hk⟩ := (drawNegative_iff hdata).mpr habsent
    refine ⟨{ op with loKey := k, result := notFound }, rest, ?_⟩
    simp only [generateLookup, bind_eq_some, ofOption_eq_some]
    refine ⟨first, _, ⟨hfirst, rfl⟩, last, _, ⟨hlast, rfl⟩, true, _, hchoose, ?_⟩
    simp only [if_true, bind_eq_some, pure_eq_some]
    exact ⟨k, rest, hk, rfl, rfl⟩

theorem sorted_shadow {isInsert : Bool} (dataMap : Multimap K)
    (hsorted : isInsert = false → Sorted KeyValue.key dataVec) :
    Sorted KeyValue.key (shadow isInsert dataMap dataVec) := by
  cases isInsert with
  | false => exact hsorted rfl
  | true => exact dataMap.sorted

/-- Whatever pairs the generation has got to, a negative lookup takes no more draws than a
range query may take exactly when one of these draws hits an absent key. -/
theorem negative_lookup_ends_iff {isInsert : Bool} (dataMap : Multimap K)
    (hsorted : isInsert = false → Sorted KeyValue.key dataVec) (hstring : keyType.isString = false)
    (hratio : lt ((0 : Nat) : D) negativeLookupRatio = true)
    (hc : lt c negativeLookupRatio = true) (draws : Nat → D) :
    LookupEnds keyType negativeLookupRatio (shadow isInsert dataMap dataVec) dataVec op c
        ((List.range (maxNumRetries + 1)).map draws) ↔
      ∃ first last, (shadow isInsert dataMap dataVec).head? = some first ∧
        (shadow isInsert dataMap dataVec).getLast? = some last ∧
        ∃ i ≤ maxNumRetries, keyType.scale (draws i) first.key (keyType.maxKey last.key) ∉
          keys (shadow isInsert dataMap dataVec) := by
  rw [lookupEnds_iff (sorted_shadow dataMap hsorted) hstring hratio hc]
  simp only [List.mem_map, List.mem_range, exists_exists_and_eq_and, Nat.lt_succ_iff]

/-- The keys 1 and 7, with the second draw between them. -/
theorem negative_lookup_ends_iff_gap :
    LookupEnds linearKeys 1 (shadow false .empty [⟨1, 0⟩, ⟨7, 1⟩]) [⟨1, 0⟩, ⟨7, 1⟩] default (1 / 2)
        ((List.range (maxNumRetries + 1)).map fun i => if i = 0 then 0 else 1 / 2) ↔
      ∃ first last : KeyValue ℕ, (shadow false .empty [⟨1, 0⟩, ⟨7, 1⟩]).head? = some first ∧
        (shadow false .empty [⟨1, 0⟩, ⟨7, 1⟩]).getLast? = some last ∧
        ∃ i ≤ maxNumRetries, linearKeys.scale (if i = 0 then 0 else 1 / 2) first.key
          (linearKeys.maxKey last.key) ∉ keys (shadow false .empty [⟨1, 0⟩, ⟨7, 1⟩]) :=
  negative_lookup_ends_iff .empty (fun _ => by decide) rfl (by decide +kernel) (by decide +kernel) _

/-- In the keys 0, 1, 2 there is no gap, and no number of draws ends the loop. -/
theorem negative_lookup_hangs :
    ¬∃ draws : Nat → ℚ, (∀ i, 0 ≤ draws i ∧ draws i ≤ 1) ∧ ∃ n,
      LookupEnds linearKeys 1 (addValues [0, 1, 2]) (addValues [0, 1, 2]) default (1 / 2)
        ((List.range n).map draws) := by
  rintro ⟨draws, hdraws, n, hends⟩
  rw [lookupEnds_iff (by decide) rfl (by decide +kernel) (by decide +kernel)] at hends
  obtain ⟨first, last, hfirst, hlast, f, hf, habsent⟩ := hends
  obtain ⟨i, -, rfl⟩ := List.mem_map.mp hf
  obtain rfl := Option.some.inj hfirst
  obtain rfl := Option.some.inj hlast
  apply habsent
  have hle : (draws i * ((2 - 0 : ℕ) : ℚ)).floor.toNat ≤ 2 := by
    have hlt : draws i * ((2 - 0 : ℕ) : ℚ) < ((2 : ℤ) : ℚ) + 1 := by
      have hone := (hdraws i).2
      push_cast
      linarith
    exact Int.toNat_le.mpr (Int.lt_add_one_iff.mp (Rat.floor_lt_iff.mpr (by exact_mod_cast hlt)))
  have hmem : ∀ k ≤ 2, k ∈ keys (addValues [0, 1, 2]) := by decide
  exact hmem _ hle

end LearnedIndex.Workload
