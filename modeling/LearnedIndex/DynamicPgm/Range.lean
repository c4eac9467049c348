import LearnedIndex.DynamicPgm.Iterator

/-! `RangeQuery` after a sequence of inserts in which keys may repeat. -/

universe u v

namespace LearnedIndex.DynamicPgm

open SortedList Util Transition

variable {K : Type u} {G : Type v} [LinearOrder K] {ops : Pgm K G} {idx idx' : Index K G}
  {x : Item K}

section ItemsUp

variable {lv lv' : Nat → List (Item K)} {first : List (Item K)}

/-- The items of `n` levels from level 7 on. -/
def itemsUp (lv : Nat → List (Item K)) (n : Nat) : List (Item K) :=
  (List.range' (minLevel + 1) n).flatMap lv

omit [LinearOrder K] in
theorem itemsUp_succ (lv : Nat → List (Item K)) (n : Nat) :
    itemsUp lv (n + 1) = itemsUp lv n ++ lv (minLevel + 1 + n) := by
  simp [itemsUp, List.range'_concat]

omit [LinearOrder K] in
theorem mem_itemsUp {n : Nat} {y : Item K} :
    y ∈ itemsUp lv n ↔ ∃ i, minLevel < i ∧ i < minLevel + 1 + n ∧ y ∈ lv i := by
  simp only [itemsUp, List.mem_flatMap, List.mem_range'_1, and_assoc]
  rfl

/-- A merge of levels that share no key keeps all items. -/
theorem mergeUp_perm {n : Nat} (h : ∀ l < n, ∀ y ∈ lv (minLevel + 1 + l),
      (∀ z ∈ first, z.key ≠ y.key) ∧ ∀ z ∈ itemsUp lv l, z.key ≠ y.key) :
    (mergeUp lv first n).Perm (first ++ itemsUp lv n) := by
  induction n with
  | zero => simp [mergeUp, itemsUp]
  | succ n ih =>
    have hmerged := ih fun l hl => h l (hl.trans (Nat.lt_succ_self n))
    rw [mergeUp_succ, itemsUp_succ, ← List.append_assoc]
    refine ((merges_merge _ _ _).perm fun z hz y hy => ?_).trans (hmerged.append_right _)
    obtain ⟨hfirst, hup⟩ := h n (Nat.lt_succ_self n) y hy
    obtain hz | hz := List.mem_append.mp (hmerged.mem_iff.mp hz)
    · exact hfirst z hz
    · exact hup z hz

end ItemsUp

theorem items_eq_itemsUp (hwf : WellFormed ops idx) {n : Nat} (hn : idx.usedLevels ≤ minLevel + 1 + n) :
    idx.items = idx.getLevel minLevel ++ itemsUp idx.getLevel n := by
  have hunused : (List.range' idx.usedLevels (minLevel + 1 + n - idx.usedLevels)).flatMap
      idx.getLevel = [] := by
    refine List.flatMap_eq_nil_iff.mpr fun i hi => ?_
    rw [List.mem_range'_1] at hi
    exact hwf.unused i hi.1
  rw [Index.items, ← List.append_nil (idx.levels.flatMap _), ← hunused, ← List.flatMap_append,
    ← levels_append hwf hn, List.range'_succ, List.flatMap_cons]
  rfl

/-- No key is on two of the levels that a merge into level `i` combines. -/
def KeysApart (idx : Index K G) (x : Item K) (i : Nat) : Prop :=
  ∀ j, minLevel < j → j < i → ∀ y ∈ idx.getLevel j, x.key ≠ y.key ∧
    ∀ l, minLevel ≤ l → l < j → ∀ z ∈ idx.getLevel l, z.key ≠ y.key

theorem mergeUp_extended_perm {n : Nat} (h : KeysApart idx x (minLevel + 1 + n)) :
    (mergeUp idx.getLevel (extended idx x) n).Perm
      (x :: (idx.getLevel minLevel ++ itemsUp idx.getLevel n)) := by
  rw [← List.cons_append]
  refine (mergeUp_perm fun l hl y hy => ?_).trans ((extended_perm idx x).append_right _)
  obtain ⟨hnew, hold⟩ := h (minLevel + 1 + l) (by omega) (by omega) y hy
  refine ⟨fun z hz => ?_, fun z hz => ?_⟩
  · obtain rfl | hz := List.mem_cons.mp ((extended_perm idx x).mem_iff.mp hz)
    · exact hnew
    · exact hold minLevel le_rfl (by omega) z hz
  · obtain ⟨i, hi, hlt, hz⟩ := mem_itemsUp.mp hz
    exact hold i hi.le hlt z hz

/-- A step adds the new item to the items, unless it is taken for a duplicate. -/
theorem InsertStep.items (h : InsertStep idx x idx') (hwf : Bounded ops idx)
    (hwf' : Bounded ops idx') (hnew : isDuplicate idx x = false)
    (hapart : ∀ i, mergesInto idx x = some i → KeysApart idx x i) :
    idx'.items.Perm (x :: idx.items) := by
  cases h with
  | duplicate hdup => exact absurd hdup (by rw [hnew]; exact Bool.false_ne_true)
  | buffered hdup hroom hused hlevels =>
    have hrest : itemsUp idx'.getLevel idx.usedLevels = itemsUp idx.getLevel idx.usedLevels := by
      apply List.flatMap_congr
      intro i hi
      rw [List.mem_range'_1] at hi
      rw [hlevels, if_neg (by omega)]
    rw [items_eq_itemsUp hwf.toWellFormed (n := idx.usedLevels) (by omega),
      items_eq_itemsUp hwf'.toWellFormed (n := idx.usedLevels) (by omega), hrest, hlevels,
      if_pos rfl, ← List.cons_append]
    exact (extended_perm idx x).append_right _
  | merged n hdup hfull hinto hn hused hempty hlevels =>
    have hsplit : ∀ lv : Nat → List (Item K), itemsUp lv (n + 1 + idx.usedLevels) =
        itemsUp lv n ++ lv (minLevel + 1 + n) ++
          (List.range' (minLevel + 1 + (n + 1)) idx.usedLevels).flatMap lv := fun lv => by
      rw [← itemsUp_succ, itemsUp, ← List.range'_append, List.flatMap_append, Nat.one_mul]
      rfl
    have habove : (List.range' (minLevel + 1 + (n + 1)) idx.usedLevels).flatMap idx'.getLevel =
        (List.range' (minLevel + 1 + (n + 1)) idx.usedLevels).flatMap idx.getLevel := by
      apply List.flatMap_congr
      intro i hi
      rw [List.mem_range'_1] at hi
      rw [hlevels, if_neg (by omega), if_neg (by omega)]
    have hbelow : itemsUp idx'.getLevel n = [] := by
      refine List.flatMap_eq_nil_iff.mpr fun i hi => ?_
      rw [List.mem_range'_1] at hi
      rw [hlevels, if_neg (by omega), if_pos (by omega)]
    have hbuffer : idx'.getLevel minLevel = [] := by
      rw [hlevels, if_neg (by omega), if_pos (by omega)]
    have htarget : idx'.getLevel (minLevel + 1 + n) =
        mergeUp idx.getLevel (extended idx x) n := by rw [hlevels, if_pos rfl]
    rw [items_eq_itemsUp hwf.toWellFormed (n := n + 1 + idx.usedLevels) (by omega),
      items_eq_itemsUp hwf'.toWellFormed (n := n + 1 + idx.usedLevels) (by omega), hsplit, hsplit,
      habove, hbelow, hbuffer, hempty, htarget]
    simpa using (mergeUp_extended_perm (hapart _ hinto)).append_right _

theorem InsertStep.buffer_subset (h : InsertStep idx x idx') :
    ∀ y ∈ idx'.getLevel minLevel, y = x ∨ y ∈ idx.getLevel minLevel := by
  intro y hy
  cases h with
  | duplicate _ heq => exact .inr (heq ▸ hy)
  | buffered _ _ _ hlevels =>
    rw [hlevels, if_pos rfl] at hy
    exact List.mem_cons.mp ((extended_perm idx x).mem_iff.mp hy)
  | merged n _ _ _ _ _ _ hlevels =>
    rw [hlevels, if_neg (by omega), if_pos (by omega)] at hy
    cases hy

theorem exists_of_isDuplicate (h : isDuplicate idx x = true) :
    ∃ y ∈ idx.getLevel minLevel, y.pair = x.pair := by
  simp only [isDuplicate, Option.any_eq_true] at h
  obtain ⟨y, hhead, hy⟩ := h
  obtain ⟨hkey, hvalue⟩ := of_decide_eq_true hy
  refine ⟨y, (List.dropWhile_sublist _).subset (List.mem_of_mem_head? hhead), ?_⟩
  rw [Item.pair, hkey, hvalue]
  rfl

/-- No merge of the run combines two levels with a common key. -/
def MergesApart (ops : Pgm K G) (memory : Memory K) (start : Index K G)
    (kvs : List (KeyValue K)) : Prop :=
  ∀ pre kv, pre ++ [kv] <+: kvs → ∀ idx, run (insertPair ops memory) start pre = some idx →
    ∀ i, mergesInto idx (.ofPair kv) = some i → KeysApart idx (.ofPair kv) i

theorem Start.items {bulk : List (KeyValue K)} (h : Start ops idx bulk) :
    idx.items.map Item.pair = bulk := by
  cases h with
  | empty h => rw [Index.items, empty_levels h]; rfl
  | bulk _ _ h =>
    obtain ⟨below, hlevels, hbelow, htop⟩ := ofSorted_levels h
    rw [Index.items, hlevels, List.flatMap_append, List.flatMap_eq_nil_iff.mpr hbelow,
      List.flatMap_singleton, htop, List.nil_append, List.map_map]
    exact List.map_id bulk

theorem mergesApart_of_fits {memory : Memory K} {start : Index K G} {bulk kvs : List (KeyValue K)}
    (hstart : Start ops start bulk) (hlen : kvs.length ≤ firstLevelMaxSize) :
    MergesApart ops memory start kvs := by
  intro pre kv hpre idx hrun i hi
  have hlt := hpre.length_le
  rw [List.length_append, List.length_singleton] at hlt
  rw [mergesInto_of_fits hstart (by omega) hrun] at hi
  cases hi

/-- As long as no insert merges into a level that already holds items, or combines levels
with a common key, a range query sums all pairs loaded and inserted in the range. -/
theorem rangeQuery_sum (search : Search K) (hwindow : ops.Window) (memory : Memory K)
    {start : Index K G} {bulk kvs : List (KeyValue K)} (hstart : Start ops start bulk)
    (hnodup : kvs.Nodup) (hsafe : MergesIntoEmpty ops memory start kvs)
    (hapart : MergesApart ops memory start kvs) :
    ∃ idx, run (insertPair ops memory) start kvs = some idx ∧ ∀ lo hi,
      rangeQuery search ops idx lo hi = some (rangeSum ↑(bulk ++ kvs) lo hi) := by
  obtain ⟨idx, hrun, hbounded, hitems, -⟩ := run_of_mergesIntoEmpty memory hsafe hstart.bounded
    (P := fun pre idx => (idx.items.map Item.pair).Perm (bulk ++ pre) ∧
      ∀ y ∈ idx.getLevel minLevel, y.pair ∈ pre)
    (by
      rw [hstart.items, hstart.buffer, List.append_nil]
      exact ⟨.refl _, fun y hy => absurd hy List.not_mem_nil⟩)
    (by
      intro pre kv idx idx' hpre hwf hwf' hrun ⟨hitems, hbuffer⟩ hins
      have hkv : kv ∉ pre := fun hmem =>
        (List.nodup_append.mp (hnodup.sublist hpre.sublist)).2.2 kv hmem kv List.mem_cons_self rfl
      have hnew : isDuplicate idx (.ofPair kv) = false := by
        rw [Bool.eq_false_iff]
        intro hdup
        obtain ⟨y, hy, hpair⟩ := exists_of_isDuplicate hdup
        rw [Item.pair_ofPair] at hpair
        exact hkv (hpair ▸ hbuffer y hy)
      have hperm := (hins.items hwf hwf' hnew (hapart pre kv hpre idx hrun)).map Item.pair
      refine ⟨?_, fun y hy => ?_⟩
      · rw [← List.append_assoc]
        apply hperm.trans
        exact (hitems.cons kv).trans (List.perm_append_singleton kv _).symm
      · obtain rfl | hy := hins.buffer_subset y hy
        · exact List.mem_append_right _ List.mem_cons_self
        · exact List.mem_append_left _ (hbuffer y hy))
  refine ⟨idx, hrun, fun lo hi => ?_⟩
  rw [rangeQuery_eq search (hwindow.guided hbounded.toWellFormed) hbounded.toWellFormed, Multiset.coe_eq_coe.mpr hitems]

theorem rangeQuery_sum_duplicate_key :
    ∃ idx, ((Index.empty 10).bind fun start => run
        (insertPair (Pgm.exact : Pgm Nat (List Nat)) fun _ => ⟨0, false, 0⟩) start
          [⟨1, 10⟩, ⟨2, 20⟩, ⟨1, 30⟩]) = some idx ∧
      rangeQuery BranchingBinarySearch.search Pgm.exact idx 1 2 = some 60 := by
  obtain ⟨start, hstart⟩ : ∃ start : Index Nat (List Nat), Index.empty 10 = some start := ⟨_, rfl⟩
  have hsafe : MergesIntoEmpty Pgm.exact (fun _ => ⟨0, false, 0⟩) start
      [⟨1, 10⟩, ⟨2, 20⟩, ⟨1, 30⟩] := mergesIntoEmpty_of_fits (.empty hstart) (by decide)
  obtain ⟨idx, hrun, hsum⟩ := rangeQuery_sum BranchingBinarySearch.search
    Pgm.exact_window _ (.empty hstart) (by decide) hsafe
    (mergesApart_of_fits (.empty hstart) (by decide))
  exact ⟨idx, by rw [hstart]; exact hrun, hsum 1 2⟩

/-- Two rounds of 128 inserts that have key 5 in common. -/
def collidingRounds : List (KeyValue Nat) :=
  ((List.range 128).map fun j => ⟨5 + j, 1⟩) ++ (List.range 128).map fun j => ⟨5 + 1000 * j, 2⟩

theorem collidingRounds_nodup : collidingRounds.Nodup := by
  refine List.Nodup.append ?_ ?_ fun kv hfst hsnd => ?_
  · exact List.nodup_range.map fun i j h => by simpa using h
  · exact List.nodup_range.map fun i j h => by simpa using h
  · obtain ⟨i, -, rfl⟩ := List.mem_map.mp hfst
    obtain ⟨j, -, h⟩ := List.mem_map.mp hsnd
    exact absurd (congrArg KeyValue.value h) (show (2 : UInt64) ≠ 1 by decide)

set_option maxRecDepth 100000 in
/-- The last of 256 inserts merges the buffer with level 7: of the two pairs with key 5, the
one inserted first is lost. -/
theorem rangeQuery_loses_pair :
    let run := fun kvs => (Index.empty 10).bind fun start => run
      (insertPair (Pgm.exact : Pgm Nat (List Nat)) fun _ => ⟨0, false, 0⟩) start kvs
    let query := fun idx => rangeQuery BranchingBinarySearch.search Pgm.exact idx 5 5
    collidingRounds.Nodup ∧ rangeSum (↑collidingRounds) 5 5 = 3 ∧
      (run collidingRounds.dropLast).bind query = some 3 ∧
      (run collidingRounds).bind query = some 2 := by
  refine ⟨collidingRounds_nodup, ?_⟩
  decide +kernel

end LearnedIndex.DynamicPgm
