import LearnedIndex.DynamicPgm.Insert
import LearnedIndex.Transition

/-! `EqualityLookup` after a sequence of inserts in which keys may repeat. -/

universe u v

namespace LearnedIndex.DynamicPgm

open SortedList Util Transition

variable {K : Type u} {G : Type v} [LinearOrder K] {ops : Pgm K G} {idx idx' : Index K G}
  {x : Item K}

/-- The indexes over the levels guide to their keys. -/
def Guided (ops : Pgm K G) (idx : Index K G) : Prop :=
  ∀ i, minIndexedLevel ≤ i → idx.getLevel i ≠ [] → ops.Guides ((idx.getLevel i).map Item.key)

theorem WellFormed.keys_sorted (hwf : WellFormed ops idx) (i : Nat) : ((idx.getLevel i).map Item.key).Pairwise (· ≤ ·) :=
  List.pairwise_map.mpr (hwf.sorted i)

theorem Pgm.Window.guided (hwindow : ops.Window) (hwf : WellFormed ops idx) : Guided ops idx := fun i _ _ =>
  hwindow.guides (hwf.keys_sorted i)

/-- A search in the range that the level's index gives does not go past the lower bound, and
stops short of it only for keys that are not there. -/
theorem levelLowerBound_spec (search : Search K) (hguided : Guided ops idx) (hwf : WellFormed ops idx)
    (i : Nat) (key : K) : ∃ r, r ≤ rank ((idx.getLevel i).map Item.key) key ∧
      levelLowerBound search ops idx i key = (idx.getLevel i).drop r ∧
        (i < minIndexedLevel ∨ key ∈ (idx.getLevel i).map Item.key → r = rank ((idx.getLevel i).map Item.key) key) := by
  have hsorted := hwf.keys_sorted i
  simp only [levelLowerBound]
  split
  · exact ⟨_, le_rfl, (drop_rank_map _ _ _).symm, fun _ => rfl⟩
  · next hmin =>
    split
    · next hempty => exact ⟨_, le_rfl, by rw [List.isEmpty_iff.mp hempty, List.drop_nil], fun _ => rfl⟩
    · next hne =>
      have hnil : idx.getLevel i ≠ [] := fun h => hne (List.isEmpty_iff.mpr h)
      obtain ⟨hlo, hpos, hhi, hrankLo, hrankHi⟩ := hguided i (not_lt.mp hmin) hnil key
      rw [hwf.built i (not_lt.mp hmin) hnil, search.lowerBound_eq hsorted hlo hpos hhi]
      refine ⟨_, max_le hrankLo (min_le_right _ _), rfl, fun h => ?_⟩
      rw [min_eq_right (hrankHi (h.resolve_left hmin)), max_eq_right hrankLo]

/-- The first level from the buffer up that has the key answers. -/
def Index.lookup (idx : Index K G) (k : K) : Option (Item K) :=
  idx.levels.findSome? fun i => lookupIn (idx.getLevel i) k

theorem find_eq_lookup (search : Search K) (hguided : Guided ops idx) (hwf : WellFormed ops idx)
    (k : K) : find search ops idx k = idx.lookup k := by
  have hlevel : ∀ i, ((levelLowerBound search ops idx i k).head?.filter fun x => x.key = k) =
      lookupIn (idx.getLevel i) k := fun i => by
    obtain ⟨r, -, hdrop, hrank⟩ := levelLowerBound_spec search hguided hwf i k
    rw [hdrop]
    by_cases hmem : k ∈ (idx.getLevel i).map Item.key
    · rw [hrank (.inr hmem), drop_rank_map, lookupIn_lowerBound (hwf.sorted i)]
    · have hne : ∀ x ∈ idx.getLevel i, x.key ≠ k := fun x hx hkey => hmem (List.mem_map.mpr ⟨x, hx, hkey⟩)
      have hnone : lookupIn (idx.getLevel i) k = none :=
        List.find?_eq_none.mpr fun x hx => by simpa using hne x hx
      rw [hnone, Option.filter_eq_none_iff]
      intro x hx
      simpa using hne x (List.mem_of_mem_drop (List.mem_of_mem_head? hx))
  simp only [find, hlevel]
  change idx.lookup k >>= _ = _
  cases h : idx.lookup k with
  | none => rfl
  | some y =>
    obtain ⟨i, -, hy⟩ := List.exists_of_findSome?_eq_some h
    have halive := hwf.alive i y (List.mem_of_find?_eq_some hy)
    simp [halive]

theorem findSome?_congr {α β : Type*} {f g : α → Option β} {xs : List α}
    (h : ∀ a ∈ xs, f a = g a) : xs.findSome? f = xs.findSome? g := by
  induction xs with
  | nil => rfl
  | cons a xs ih =>
    rw [List.findSome?_cons, List.findSome?_cons, h a List.mem_cons_self,
      ih fun b hb => h b (List.mem_cons_of_mem _ hb)]

section LookupUp

variable {lv lv' : Nat → List (Item K)}

theorem lookupUp_congr {n : Nat} (h : ∀ i, minLevel < i → lv i = lv' i) (k : K) :
    lookupUp lv n k = lookupUp lv' n k := by
  apply findSome?_congr
  intro i hi
  rw [List.mem_range'_1] at hi
  rw [h i hi.1]

theorem lookupUp_eq_none {n : Nat} (h : ∀ i, minLevel < i → i < minLevel + 1 + n → lv i = [])
    (k : K) : lookupUp lv n k = none := by
  refine List.findSome?_eq_none_iff.mpr fun i hi => ?_
  rw [List.mem_range'_1] at hi
  rw [h i (by omega) (by omega), lookupIn_nil]

theorem lookupUp_add (lv : Nat → List (Item K)) (n m : Nat) (k : K) :
    lookupUp lv (n + m) k = (lookupUp lv n k).or
      ((List.range' (minLevel + 1 + n) m).findSome? fun i => lookupIn (lv i) k) := by
  rw [lookupUp, ← List.range'_append, List.findSome?_append, Nat.one_mul]
  rfl

end LookupUp

theorem levels_append (hwf : WellFormed ops idx) {n : Nat} (hn : idx.usedLevels ≤ minLevel + 1 + n) :
    List.range' minLevel (n + 1) = idx.levels ++
      List.range' idx.usedLevels (minLevel + 1 + n - idx.usedLevels) := by
  have hused := hwf.used
  have hlen : n + 1 = (idx.usedLevels - minLevel) + (minLevel + 1 + n - idx.usedLevels) := by omega
  have hstart : idx.usedLevels = minLevel + 1 * (idx.usedLevels - minLevel) := by omega
  rw [Index.levels, hlen, ← List.range'_append, ← hstart]

/-- Levels that are not in use may be asked as well. -/
theorem lookup_eq_lookupUp (hwf : WellFormed ops idx) {n : Nat} (hn : idx.usedLevels ≤ minLevel + 1 + n)
    (k : K) : idx.lookup k = (lookupIn (idx.getLevel minLevel) k).or (lookupUp idx.getLevel n k) := by
  have hunused : (List.range' idx.usedLevels (minLevel + 1 + n - idx.usedLevels)).findSome?
      (fun i => lookupIn (idx.getLevel i) k) = none := by
    refine List.findSome?_eq_none_iff.mpr fun i hi => ?_
    rw [List.mem_range'_1] at hi
    rw [hwf.unused i hi.1, lookupIn_nil]
  calc idx.lookup k
      = (List.range' minLevel (n + 1)).findSome? fun i => lookupIn (idx.getLevel i) k := by
        rw [levels_append hwf hn, List.findSome?_append, hunused, Option.or_none]
        rfl
    _ = _ := by
        rw [List.range'_succ, List.findSome?_cons, lookupUp]
        cases lookupIn (idx.getLevel minLevel) k <;> rfl

theorem lookup_of_duplicate (hwf : WellFormed ops idx) (hx : x.deleted = false)
    (h : isDuplicate idx x = true) : idx.lookup x.key = some x := by
  simp only [isDuplicate, Option.any_eq_true] at h
  obtain ⟨y, hhead, hy⟩ := h
  obtain ⟨hkey, hvalue⟩ := of_decide_eq_true hy
  have hfound : lookupIn (idx.getLevel minLevel) x.key = some y := by
    rw [← lookupIn_lowerBound (hwf.sorted minLevel)]
    change (bufferBack idx x).head?.filter _ = _
    rw [hhead]
    simp [hkey]
  have heq : y = x := by
    have hdel := hwf.alive minLevel y (List.mem_of_find?_eq_some hfound)
    cases x
    cases y
    simp_all [Item.key, Item.value, Item.deleted]
  rw [lookup_eq_lookupUp hwf (n := idx.usedLevels) (by omega), hfound, heq, Option.some_or]

/-- After a step the new item is found under its key, and the old items under all others. -/
theorem InsertStep.lookup (h : InsertStep idx x idx') (hwf : Bounded ops idx)
    (hwf' : Bounded ops idx') (hx : x.deleted = false) (k : K) :
    idx'.lookup k = if x.key = k then some x else idx.lookup k := by
  have hlookup := fun n (hn : idx.usedLevels ≤ minLevel + 1 + n) =>
    lookup_eq_lookupUp hwf.toWellFormed hn k
  have hlookup' := fun n (hn : idx'.usedLevels ≤ minLevel + 1 + n) =>
    lookup_eq_lookupUp hwf'.toWellFormed hn k
  cases h with
  | duplicate hdup heq =>
    subst heq
    split
    · next hk =>
      subst hk
      exact lookup_of_duplicate hwf.toWellFormed hx hdup
    · rfl
  | buffered hdup hroom hused hlevels =>
    have hrest : lookupUp idx'.getLevel idx.usedLevels k = lookupUp idx.getLevel idx.usedLevels k :=
      lookupUp_congr (fun i hi => by rw [hlevels, if_neg hi.ne']) k
    rw [hlookup idx.usedLevels (by omega), hlookup' idx.usedLevels (by omega), hlevels,
      if_pos rfl, hrest, lookupIn_extended]
    split <;> rfl
  | merged n hdup hfull hinto hn hused hempty hlevels =>
    -- Below the target everything has moved, above it nothing has changed.
    have habove : ∀ i ∈ List.range' (minLevel + 1 + (n + 1)) idx.usedLevels,
        lookupIn (idx'.getLevel i) k = lookupIn (idx.getLevel i) k := fun i hi => by
      rw [List.mem_range'_1] at hi
      rw [hlevels, if_neg (by omega), if_neg (by omega)]
    have hbelow : lookupUp idx'.getLevel n k = none :=
      lookupUp_eq_none (fun i hmin hi => by rw [hlevels, if_neg (by omega), if_pos hi]) k
    have hbuffer : idx'.getLevel minLevel = [] := by
      rw [hlevels, if_neg (by omega), if_pos (by omega)]
    have htarget : idx'.getLevel (minLevel + 1 + n) =
        mergeUp idx.getLevel (extended idx x) n := by rw [hlevels, if_pos rfl]
    have hsucc : ∀ lv : Nat → List (Item K), lookupUp lv (n + 1) k =
        (lookupUp lv n k).or (lookupIn (lv (minLevel + 1 + n)) k) := fun lv => by
      simp [lookupUp, List.range'_concat, List.findSome?_append]
    have halive : ∀ y ∈ extended idx x, y.deleted = false := fun y hy => by
      obtain rfl | hy := List.mem_cons.mp ((extended_perm idx x).mem_iff.mp hy)
      · exact hx
      · exact hwf.alive _ y hy
    rw [hlookup (n + 1 + idx.usedLevels) (by omega), hlookup' (n + 1 + idx.usedLevels) (by omega),
      lookupUp_add _ (n + 1), lookupUp_add _ (n + 1), findSome?_congr habove, hsucc, hsucc, hempty, hbuffer,
      hbelow, htarget, lookupIn_mergeUp hwf.sorted hwf.alive
        (extended_sorted (hwf.sorted minLevel) x) halive, lookupIn_extended]
    split <;> simp [Option.or_assoc]

section Start

omit [LinearOrder K] in
theorem empty_getLevel {n : Nat} (h : Index.empty n = some idx) (i : Nat) : idx.getLevel i = [] := by
  simp only [Index.empty, Option.ite_none_right_eq_some, Option.some.injEq] at h
  obtain ⟨-, rfl⟩ := h
  simp only [Index.getLevel]
  split
  · rw [List.getD_eq_getElem?_getD, List.getElem?_replicate]
    split <;> rfl
  · rfl

omit [LinearOrder K] in
theorem empty_levels {n : Nat} (h : Index.empty n = some idx) : idx.levels = [] := by
  simp only [Index.empty, Option.ite_none_right_eq_some, Option.some.injEq] at h
  obtain ⟨-, rfl⟩ := h
  rfl

theorem empty_bounded {n : Nat} (h : Index.empty n = some idx) : Bounded ops idx := by
  have hlevel := empty_getLevel h
  simp only [Index.empty, Option.ite_none_right_eq_some, Option.some.injEq] at h
  obtain ⟨hn, rfl⟩ := h
  refine ⟨⟨le_rfl, ?_, ?_, ?_, fun i _ => hlevel i, fun i => ?_, fun i => ?_, fun i _ hne => ?_⟩, ?_⟩
  · simp
  · simp only [maxFullyAllocatedLevel, minLevel, List.length_replicate] at hn ⊢
    omega
  · exact Nat.le_add_right_of_le (show minLevel ≤ minIndexedLevel by decide)
  · rw [hlevel]
    exact .nil
  · simp [hlevel]
  · exact (hne (hlevel i)).elim
  · simp [hlevel]

variable {data : List (KeyValue K)}

omit [LinearOrder K] in
theorem ofSorted_usedLevels (h : Index.ofSorted ops data = some idx) :
    maxFullyAllocatedLevel < idx.usedLevels ∧ idx.usedLevels = Nat.clog 2 data.length + 1 := by
  simp only [Index.ofSorted, Option.ite_none_right_eq_some, Option.some.injEq] at h
  obtain ⟨hn, rfl⟩ := h
  exact ⟨hn, rfl⟩

omit [LinearOrder K] in
/-- All data is on the last level. -/
theorem ofSorted_getLevel (h : Index.ofSorted ops data = some idx) (i : Nat) :
    idx.getLevel i = if i + 1 = idx.usedLevels then data.map Item.ofPair else [] := by
  obtain ⟨hused, -⟩ := ofSorted_usedLevels h
  simp only [Index.ofSorted, Option.ite_none_right_eq_some, Option.some.injEq] at h
  obtain ⟨-, rfl⟩ := h
  simp only [maxFullyAllocatedLevel] at hused
  simp only [Index.getLevel, minLevel, List.getD_eq_getElem?_getD, List.getElem?_set,
    List.length_replicate, List.getElem?_replicate]
  by_cases hi : i + 1 = Nat.clog 2 data.length + 1
  · rw [if_pos (by omega), if_pos (by omega), if_pos (by omega), if_pos hi, Option.getD_some]
  · rw [if_neg hi]
    split
    · rw [if_neg (by omega)]
      split <;> rfl
    · rfl

omit [LinearOrder K] in
/-- Every level in use is allocated, with an index where it needs one. -/
theorem ofSorted_allocated (h : Index.ofSorted ops data = some idx) :
    idx.data.length = idx.usedLevels - minLevel ∧
      idx.usedLevels ≤ minIndexedLevel + idx.pgm.length := by
  simp only [Index.ofSorted, Option.ite_none_right_eq_some, Option.some.injEq] at h
  obtain ⟨-, rfl⟩ := h
  refine ⟨by rw [List.length_set, List.length_replicate], ?_⟩
  dsimp only
  split
  · rw [List.length_set, List.length_replicate]
    omega
  · rw [List.length_nil]
    omega

theorem ofSorted_bounded (hsorted : Sorted KeyValue.key data)
    (h : Index.ofSorted ops data = some idx) : Bounded ops idx := by
  obtain ⟨hused, -⟩ := ofSorted_usedLevels h
  have hlevel := ofSorted_getLevel h
  simp only [maxFullyAllocatedLevel] at hused
  obtain ⟨hdata, hindexed⟩ := ofSorted_allocated h
  have hbuilt : minIndexedLevel < idx.usedLevels →
      idx.getPgm ops (idx.usedLevels - 1) = ops.build (keys data) := by
    simp only [Index.ofSorted, Option.ite_none_right_eq_some, Option.some.injEq] at h
    obtain ⟨-, rfl⟩ := h
    intro hlt
    dsimp only at hlt ⊢
    rw [if_pos (by omega), Index.getPgm, List.getD_eq_getElem?_getD, List.getElem?_set_self (by
      rw [List.length_replicate]
      omega), Option.getD_some]
  have hmin : minLevel = 6 := rfl
  refine ⟨⟨?_, ?_, ?_, hindexed, fun i hi => ?_, fun i => ?_, fun i => ?_, fun i hi hne => ?_⟩, ?_⟩
  · omega
  · omega
  · omega
  · rw [hlevel, if_neg (by omega)]
  · rw [hlevel]
    split
    · exact List.pairwise_map.mpr hsorted
    · exact .nil
  · rw [hlevel]
    split
    · simp
    · simp
  · rw [hlevel] at hne ⊢
    by_cases htop : i + 1 = idx.usedLevels
    · obtain rfl : i = idx.usedLevels - 1 := by omega
      rw [hbuilt (by omega), if_pos htop, List.map_map]
      rfl
    · exact (hne (if_neg htop)).elim
  · rw [hlevel, if_neg (by omega)]
    exact Nat.zero_le _

omit [LinearOrder K] in
/-- The levels below the last one hold nothing. -/
theorem ofSorted_levels (h : Index.ofSorted ops data = some idx) :
    ∃ below, idx.levels = below ++ [idx.usedLevels - 1] ∧ (∀ i ∈ below, idx.getLevel i = []) ∧
      idx.getLevel (idx.usedLevels - 1) = data.map Item.ofPair := by
  obtain ⟨hused, -⟩ := ofSorted_usedLevels h
  have hlevel := ofSorted_getLevel h
  simp only [maxFullyAllocatedLevel] at hused
  have hmin : minLevel = 6 := rfl
  have hlen : idx.usedLevels - minLevel = idx.usedLevels - 1 - minLevel + 1 := by omega
  have htop : idx.usedLevels - 1 = minLevel + 1 * (idx.usedLevels - 1 - minLevel) := by omega
  refine ⟨List.range' minLevel (idx.usedLevels - 1 - minLevel), ?_, fun i hi => ?_, ?_⟩
  · rw [Index.levels, hlen, List.range'_concat, ← htop]
  · rw [List.mem_range'_1] at hi
    rw [hlevel, if_neg (by omega)]
  · rw [hlevel, if_pos (by omega)]

theorem ofSorted_lookup (h : Index.ofSorted ops data = some idx) (k : K) :
    idx.lookup k = lookupIn (data.map Item.ofPair) k := by
  obtain ⟨below, hlevels, hbelow, htop⟩ := ofSorted_levels h
  have hnone : below.findSome? (fun i => lookupIn (idx.getLevel i) k) = none :=
    List.findSome?_eq_none_iff.mpr fun i hi => by rw [hbelow i hi, lookupIn_nil]
  rw [Index.lookup, hlevels, List.findSome?_append, hnone, Option.none_or,
    List.findSome?_singleton, htop]

/-- The states that a sequence of inserts starts from, with the pairs already in them. -/
inductive Start (ops : Pgm K G) : Index K G → List (KeyValue K) → Prop
  | empty {n : Nat} {idx : Index K G} (h : Index.empty n = some idx) : Start ops idx []
  | bulk {data : List (KeyValue K)} {idx : Index K G} (hlen : 2 ^ 14 < data.length) (hsorted : Sorted KeyValue.key data)
      (h : Index.ofSorted ops data = some idx) : Start ops idx data

omit [LinearOrder K] in
/-- The constructor accepts every data set that fills level 15. -/
theorem ofSorted_isSome (ops : Pgm K G) (hlen : 2 ^ 14 < data.length) :
    ∃ idx, Index.ofSorted ops data = some idx := by
  have hlog : 14 < Nat.clog 2 data.length := (Nat.lt_clog_iff_pow_lt (by decide)).mpr hlen
  have hused : maxFullyAllocatedLevel < Nat.clog 2 data.length + 1 := by
    simp only [maxFullyAllocatedLevel]
    omega
  simp only [Index.ofSorted, if_pos hused]
  exact ⟨_, rfl⟩

theorem Start.bounded (h : Start ops idx data) : Bounded ops idx := by
  cases h with
  | empty h => exact empty_bounded h
  | bulk _ hsorted h => exact ofSorted_bounded hsorted h

end Start

section Latest

/-- The value of the last pair with the key. -/
def latest : List (KeyValue K) → K → Option UInt64
  | [], _ => none
  | kv :: kvs, k => (latest kvs k).or (if kv.key = k then some kv.value else none)

theorem latest_append (xs ys : List (KeyValue K)) (k : K) :
    latest (xs ++ ys) k = (latest ys k).or (latest xs k) := by
  induction xs with
  | nil => simp [latest]
  | cons x xs ih => rw [List.cons_append, latest, latest, ih, Option.or_assoc]

theorem latest_concat (kvs : List (KeyValue K)) (kv : KeyValue K) (k : K) :
    latest (kvs ++ [kv]) k = if kv.key = k then some kv.value else latest kvs k := by
  rw [latest_append, latest, latest, Option.none_or]
  split <;> rfl

theorem latest_eq_none {kvs : List (KeyValue K)} {k : K} (h : k ∉ keys kvs) : latest kvs k = none := by
  induction kvs with
  | nil => rfl
  | cons kv kvs ih =>
    obtain ⟨hne, hk⟩ := not_or.mp (mt List.mem_cons.mpr h)
    rw [latest, ih hk, if_neg (Ne.symm hne), Option.or_none]

theorem lookupIn_ofPair {data : List (KeyValue K)} (hnodup : (keys data).Nodup) (k : K) :
    (lookupIn (data.map Item.ofPair) k).map Item.value = latest data k := by
  induction data with
  | nil => rfl
  | cons kv kvs ih =>
    obtain ⟨hkv, hkvs⟩ := List.nodup_cons.mp hnodup
    rw [List.map_cons, lookupIn_cons, Item.key_ofPair, latest]
    split
    · next hk =>
      rw [latest_eq_none (hk ▸ hkv)]
      rfl
    · rw [ih hkvs, Option.or_none]

end Latest

/-- No insert of the run merges into a level that already holds items. -/
def MergesIntoEmpty (ops : Pgm K G) (memory : Memory K) (start : Index K G)
    (kvs : List (KeyValue K)) : Prop :=
  ∀ pre kv, pre ++ [kv] <+: kvs → ∀ idx, run (insertPair ops memory) start pre = some idx →
    ∀ i, mergesInto idx (.ofPair kv) = some i → idx.getLevel i = []

theorem mergesInto_of_room (h : (idx.getLevel minLevel).length < firstLevelMaxSize) :
    mergesInto idx x = none := by
  rw [mergesInto, if_pos h, ite_self]

theorem InsertStep.buffer_length (h : InsertStep idx x idx') :
    (idx'.getLevel minLevel).length ≤ (idx.getLevel minLevel).length + 1 := by
  cases h with
  | duplicate _ heq => rw [heq]; exact Nat.le_succ _
  | buffered _ _ _ hlevels => rw [hlevels, if_pos rfl, extended_length]
  | merged n _ _ _ _ _ _ hlevels =>
    rw [hlevels, if_neg (by omega), if_pos (by omega)]
    exact Nat.zero_le _

theorem Start.buffer {start : Index K G} {bulk : List (KeyValue K)} (h : Start ops start bulk) :
    start.getLevel minLevel = [] := by
  cases h with
  | empty h => exact empty_getLevel h minLevel
  | bulk _ _ h =>
    obtain ⟨hused, -⟩ := ofSorted_usedLevels h
    have hne : minLevel + 1 ≠ start.usedLevels :=
      ((show minLevel + 1 ≤ maxFullyAllocatedLevel by decide).trans_lt hused).ne
    rw [ofSorted_getLevel h, if_neg hne]

/-- A run that fits into the buffer never merges. -/
theorem mergesInto_of_fits {memory : Memory K} {start : Index K G} {bulk pre : List (KeyValue K)}
    {kv : KeyValue K} (hstart : Start ops start bulk) (hlen : pre.length < firstLevelMaxSize)
    (hrun : run (insertPair ops memory) start pre = some idx) :
    mergesInto idx (.ofPair kv) = none := by
  suffices h : Bounded ops idx ∧ (idx.getLevel minLevel).length ≤ pre.length from
    mergesInto_of_room (h.2.trans_lt hlen)
  refine run_induction (P := fun pre idx => Bounded ops idx ∧
    (idx.getLevel minLevel).length ≤ pre.length) ⟨hstart.bounded, by rw [hstart.buffer]; rfl⟩ ?_ hrun
  intro bs r a r' hbs hrun ⟨hbounded, hle⟩ hr'
  have hroom : mergesInto r (.ofPair a) = none := by
    have := hbs.length_le
    rw [List.length_append, List.length_singleton] at this
    exact mergesInto_of_room (by omega)
  obtain ⟨idx', hidx', hbounded', hstep⟩ := insert_step memory hbounded (Item.deleted_ofPair a)
    (fun i hi => by rw [hroom] at hi; cases hi)
  obtain rfl : idx' = r' := Option.some.inj (hidx'.symm.trans hr')
  refine ⟨hbounded', hstep.buffer_length.trans ?_⟩
  rw [List.length_append, List.length_singleton]
  exact Nat.succ_le_succ hle

theorem mergesIntoEmpty_of_fits {memory : Memory K} {start : Index K G} {bulk kvs : List (KeyValue K)}
    (hstart : Start ops start bulk) (hlen : kvs.length ≤ firstLevelMaxSize) :
    MergesIntoEmpty ops memory start kvs := by
  intro pre kv hpre idx hrun i hi
  have hlt := hpre.length_le
  rw [List.length_append, List.length_singleton] at hlt
  rw [mergesInto_of_fits hstart (by omega) hrun] at hi
  cases hi

/-- What holds initially and after each insert of such a run holds at its end, and the run
gets there. -/
theorem run_of_mergesIntoEmpty (memory : Memory K) {start : Index K G} {kvs : List (KeyValue K)}
    {P : List (KeyValue K) → Index K G → Prop}
    (hsafe : MergesIntoEmpty ops memory start kvs) (hstart : Bounded ops start) (h0 : P [] start)
    (hstep : ∀ pre kv idx idx', pre ++ [kv] <+: kvs → Bounded ops idx → Bounded ops idx' →
      run (insertPair ops memory) start pre = some idx → P pre idx →
      InsertStep idx (.ofPair kv) idx' → P (pre ++ [kv]) idx') :
    ∃ idx, run (insertPair ops memory) start kvs = some idx ∧ Bounded ops idx ∧ P kvs idx := by
  apply run_total (P := fun pre idx => Bounded ops idx ∧ P pre idx) ⟨hstart, h0⟩
  intro pre idx kv hpre hrun h
  obtain ⟨idx', hidx', hbounded, hins⟩ :=
    insert_step memory h.1 (Item.deleted_ofPair kv) (hsafe pre kv hpre idx hrun)
  exact ⟨idx', hidx', hbounded, hstep pre kv idx idx' hpre h.1 hbounded hrun h.2 hins⟩

/-- As long as no insert merges into a level that already holds items, a lookup returns the
value inserted last for the key, else the one loaded, else `OVERFLOW`. -/
theorem equalityLookup_latest (search : Search K) (hwindow : ops.Window) (memory : Memory K)
    {start : Index K G} {bulk kvs : List (KeyValue K)} (hstart : Start ops start bulk)
    (hbulk : (keys bulk).Nodup) (hsafe : MergesIntoEmpty ops memory start kvs) :
    ∃ idx, run (insertPair ops memory) start kvs = some idx ∧ ∀ k,
      equalityLookup search ops idx k = ((latest kvs k).or (latest bulk k)).getD overflow := by
  have hstart0 : ∀ k, (start.lookup k).map Item.value = latest bulk k := fun k => by
    cases hstart with
    | empty h => rw [Index.lookup, empty_levels h]; rfl
    | bulk _ _ h => rw [ofSorted_lookup h, lookupIn_ofPair hbulk]
  obtain ⟨idx, hrun, hbounded, hlookup⟩ := run_of_mergesIntoEmpty memory hsafe hstart.bounded
    (P := fun pre idx => ∀ k, (idx.lookup k).map Item.value = (latest pre k).or (latest bulk k))
    (fun k => by rw [hstart0, latest, Option.none_or])
    (fun pre kv idx idx' _ hwf hwf' _ hpre hins k => by
      rw [hins.lookup hwf hwf' rfl, latest_concat, Item.key_ofPair]
      split
      · rfl
      · exact hpre k)
  refine ⟨idx, hrun, fun k => ?_⟩
  rw [← hlookup, equalityLookup, find_eq_lookup search (hwindow.guided hbounded.toWellFormed) hbounded.toWellFormed]
  cases idx.lookup k <;> rfl

/-- One round of 128 inserts for each of four values, with descending keys. -/
def overwriteRounds (top value : Nat) : List (KeyValue Nat) :=
  (List.range 4).flatMap fun round => (List.range 128).map fun j =>
    ⟨top - j, UInt64.ofNat (value + 1000 * round + j)⟩

theorem equalityLookup_latest_update :
    ∃ idx, ((Index.empty 10).bind fun start => run
        (insertPair (Pgm.exact : Pgm Nat (List Nat)) fun _ => ⟨0, false, 0⟩) start
          [⟨1, 10⟩, ⟨2, 20⟩, ⟨1, 30⟩]) = some idx ∧
      equalityLookup BranchingBinarySearch.search Pgm.exact idx 1 = 30 := by
  obtain ⟨start, hstart⟩ : ∃ start : Index Nat (List Nat), Index.empty 10 = some start := ⟨_, rfl⟩
  have hsafe : MergesIntoEmpty Pgm.exact (fun _ => ⟨0, false, 0⟩) start
      [⟨1, 10⟩, ⟨2, 20⟩, ⟨1, 30⟩] := mergesIntoEmpty_of_fits (.empty hstart) (by decide)
  obtain ⟨idx, hrun, hlookup⟩ := equalityLookup_latest BranchingBinarySearch.search
    Pgm.exact_window _ (.empty hstart) List.nodup_nil hsafe
  exact ⟨idx, by rw [hstart]; exact hrun, hlookup 1⟩

set_option maxRecDepth 100000 in
/-- The eighth round of 128 inserts merges into a level that already holds items: key 2000,
inserted four times before, cannot be found any more. -/
theorem equalityLookup_loses_key :
    let run := fun kvs => (Index.empty 10).bind fun start => run
      (insertPair (Pgm.exact : Pgm Nat (List Nat)) fun _ => ⟨0, false, 0⟩) start kvs
    let lookup := fun idx => equalityLookup BranchingBinarySearch.search Pgm.exact idx 2000
    let kvs := overwriteRounds 2000 0 ++ overwriteRounds 1000 10000
    latest kvs 2000 = some 3000 ∧ (run kvs.dropLast).map lookup = some 3000 ∧
      (run kvs).map lookup = some overflow := by
  decide +kernel

end LearnedIndex.DynamicPgm
