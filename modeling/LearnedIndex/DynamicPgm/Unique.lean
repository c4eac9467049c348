import LearnedIndex.DynamicPgm.Range

/-! With unique keys the levels count in binary: each level between the buffer and the last one
is empty or full, every merge fills an empty one, and the index behaves like a map. -/

universe u v

namespace LearnedIndex.DynamicPgm

open SortedList Util Transition

variable {K : Type u} {G : Type v} [LinearOrder K] {ops : Pgm K G} {idx : Index K G}
  {x : Item K} {kv : KeyValue K}

omit [LinearOrder K] in
theorem getLevel_of_lt {i : Nat} (h : i < minLevel) : idx.getLevel i = [] := if_neg (not_le.mpr h)

/-- The state of an index with unique keys; a bulk load may leave its level partly filled. -/
structure Counter (ops : Pgm K G) (idx : Index K G) : Prop extends Bounded ops idx where
  full : ∀ i, minLevel < i → i + 1 < idx.usedLevels →
    idx.getLevel i = [] ∨ (idx.getLevel i).length = 2 ^ i
  top : ∀ i, minLevel < i → i + 1 = idx.usedLevels →
    idx.getLevel i ≠ [] ∧ (idx.getLevel i).length ≤ 2 ^ i
  unique : idx.items.Pairwise fun x y => x.key ≠ y.key

theorem empty_counter {n : Nat} (h : Index.empty n = some idx) : Counter ops idx := by
  have hused : idx.usedLevels = minLevel := by
    simp only [Index.empty, Option.ite_none_right_eq_some, Option.some.injEq] at h
    obtain ⟨-, rfl⟩ := h
    rfl
  refine ⟨empty_bounded h, fun i _ _ => .inl (empty_getLevel h i), fun i hi htop => ?_, ?_⟩
  · omega
  · rw [Index.items, empty_levels h]
    exact .nil

/-- The constructor on sorted data leaves everything on the last level, which has room for it. -/
theorem ofSorted_counter {data : List (KeyValue K)} (hlen : 2 ^ 14 < data.length)
    (hsorted : Sorted KeyValue.key data) (hdata : (keys data).Nodup)
    (h : Index.ofSorted ops data = some idx) : Counter ops idx := by
  have hlevel := ofSorted_getLevel h
  obtain ⟨-, hused⟩ := ofSorted_usedLevels h
  refine ⟨ofSorted_bounded hsorted h, fun i _ hi => .inl ?_, fun i _ htop => ?_, ?_⟩
  · rw [hlevel, if_neg hi.ne]
  · rw [hlevel, if_pos htop]
    constructor
    · apply List.ne_nil_of_length_pos
      rw [List.length_map]
      exact (Nat.zero_le _).trans_lt hlen
    · obtain rfl : i = Nat.clog 2 data.length := by omega
      rw [List.length_map]
      exact Nat.le_pow_clog Nat.one_lt_two _
  · apply List.Pairwise.of_map (S := fun x y : KeyValue K => x.key ≠ y.key) Item.pair fun _ _ h => h
    rw [(Start.bulk hlen hsorted h).items]
    exact List.pairwise_map.mp hdata

theorem Start.counter {data : List (KeyValue K)} (h : Start ops idx data)
    (hdata : (keys data).Nodup) : Counter ops idx := by
  cases h with
  | empty h => exact empty_counter h
  | bulk hlen hsorted h => exact ofSorted_counter hlen hsorted hdata h

theorem level_of_mem (hwf : WellFormed ops idx) {i : Nat} {y : Item K} (hy : y ∈ idx.getLevel i) :
    i ∈ idx.levels := by
  have hused := hwf.used
  rw [Index.levels, List.mem_range'_1]
  constructor
  · by_contra hlt
    rw [getLevel_of_lt (not_le.mp hlt)] at hy
    cases hy
  · by_contra hge
    rw [hwf.unused i (by omega)] at hy
    cases hy

theorem mem_items (hwf : WellFormed ops idx) {y : Item K} :
    y ∈ idx.items ↔ ∃ i, y ∈ idx.getLevel i := by
  rw [Index.items, List.mem_flatMap]
  constructor
  · rintro ⟨i, -, hy⟩
    exact ⟨i, hy⟩
  · rintro ⟨i, hy⟩
    exact ⟨i, level_of_mem hwf hy, hy⟩

/-- Two levels have no key in common. -/
theorem Counter.disjoint (h : Counter ops idx) {i j : Nat} (hij : i ≠ j) {y z : Item K}
    (hy : y ∈ idx.getLevel i) (hz : z ∈ idx.getLevel j) : y.key ≠ z.key := by
  obtain ⟨-, hlevels⟩ := List.pairwise_flatMap.mp h.unique
  have hsymm : Std.Symm fun a b => ∀ y ∈ idx.getLevel a, ∀ z ∈ idx.getLevel b, y.key ≠ z.key :=
    ⟨fun a b hab y hy z hz => (hab z hz y hy).symm⟩
  exact hlevels.forall (level_of_mem h.toWellFormed hy) (level_of_mem h.toWellFormed hz) hij y hy z hz

theorem Counter.keysApart (h : Counter ops idx) (hfresh : ∀ y ∈ idx.items, y.key ≠ x.key) (i : Nat) :
    KeysApart idx x i := by
  intro j hj _ y hy
  refine ⟨(hfresh y ((mem_items h.toWellFormed).mpr ⟨j, hy⟩)).symm, ?_⟩
  exact fun l _ hl z hz => h.disjoint hl.ne hz hy

omit [LinearOrder K] in
/-- As long as all levels below are full, they and the buffer fill the next level exactly. -/
theorem sizeUp_of_full {lv : Nat → List (Item K)} {n : Nat}
    (h : ∀ l < n, (lv (minLevel + 1 + l)).length = 2 ^ (minLevel + 1 + l)) :
    firstLevelMaxSize + 1 + sizeUp lv n = 2 ^ (minLevel + 1 + n) := by
  induction n with
  | zero => rfl
  | succ n ih =>
    have hn := h n (Nat.lt_succ_self n)
    have hrest := ih fun l hl => h l (hl.trans (Nat.lt_succ_self n))
    rw [sizeUp_succ, hn, ← Nat.add_assoc, hrest, ← Nat.two_mul, ← Nat.pow_succ']
    rfl

theorem mergesInto_eq_some {i : Nat} (h : mergesInto idx x = some i) :
    firstLevelMaxSize ≤ (idx.getLevel minLevel).length ∧ (mergeTarget idx).1 = i := by
  unfold mergesInto at h
  split at h
  · cases h
  · split at h
    · cases h
    · exact ⟨not_lt.mp ‹_›, Option.some.inj h⟩

/-- A merge finds its target empty, and what it moves there fits; below the last level it fills the
target exactly. -/
theorem Counter.merge_target (h : Counter ops idx) {i : Nat} (hi : mergesInto idx x = some i) :
    ∃ n, i = minLevel + 1 + n ∧ idx.getLevel i = [] ∧
      (i + 1 < idx.usedLevels ∧ firstLevelMaxSize + 1 + sizeUp idx.getLevel n = 2 ^ i ∨
        i = idx.usedLevels ∧ firstLevelMaxSize + 1 + sizeUp idx.getLevel n ≤ 2 ^ i) := by
  obtain ⟨hfull, htarget⟩ := mergesInto_eq_some hi
  have hused : minLevel + 1 ≤ idx.usedLevels := by
    by_contra hlt
    rw [h.unused minLevel (by omega), List.length_nil] at hfull
    exact absurd hfull (by decide)
  obtain ⟨n, hn, heq, hstop, hbelow⟩ := mergeTarget_spec hused
  obtain rfl : minLevel + 1 + n = i := by rw [← htarget, heq]
  have hfull : ∀ l, l < n → minLevel + 1 + l + 1 < idx.usedLevels →
      (idx.getLevel (minLevel + 1 + l)).length = 2 ^ (minLevel + 1 + l) := by
    intro l
    induction l using Nat.strong_induction_on with
    | _ l ih =>
      intro hl hlast
      refine (h.full (minLevel + 1 + l) (by omega) hlast).resolve_left fun hempty => hbelow l hl ?_
      rw [sizeUp_of_full fun j hj => ih j hj (hj.trans hl) (by omega), hempty]
      exact le_rfl
  refine ⟨n, rfl, ?_⟩
  by_cases hnew : minLevel + 1 + n = idx.usedLevels
  · refine ⟨h.unused _ hnew.ge, .inr ⟨hnew, ?_⟩⟩
    cases n with
    | zero => exact le_rfl
    | succ m =>
      have htop := (h.top (minLevel + 1 + m) (by omega) (by omega)).2
      have hrest := sizeUp_of_full fun l hl =>
        hfull l (hl.trans (Nat.lt_succ_self m)) (by omega)
      rw [sizeUp_succ, ← Nat.add_assoc, hrest, ← Nat.add_assoc, Nat.pow_succ, Nat.mul_two]
      exact Nat.add_le_add_left htop _
  · have hsize := sizeUp_of_full fun l hl => hfull l hl (by omega)
    have hfit := hstop.resolve_left hnew
    have hempty : idx.getLevel (minLevel + 1 + n) = [] := by
      apply List.eq_nil_of_length_eq_zero
      rw [hsize] at hfit
      have hpos : 0 < 2 ^ (minLevel + 1 + n) := Nat.two_pow_pos _
      omega
    refine ⟨hempty, .inl ⟨?_, hsize⟩⟩
    by_contra hlast
    exact (h.top (minLevel + 1 + n) (by omega) (by omega)).1 hempty

/-- What a merge moves to its target has the size of everything it moves. -/
theorem mergeUp_length {n : Nat} (hbuffer : (idx.getLevel minLevel).length = firstLevelMaxSize)
    (hapart : KeysApart idx x (minLevel + 1 + n)) :
    (mergeUp idx.getLevel (extended idx x) n).length =
      firstLevelMaxSize + 1 + sizeUp idx.getLevel n := by
  have hlen := (mergeUp_extended_perm hapart).length_eq
  have hup : (itemsUp idx.getLevel n).length = sizeUp idx.getLevel n := List.length_flatMap
  rw [List.length_cons, List.length_append, hup, hbuffer] at hlen
  omega

theorem Counter.levels_step (h : Counter ops idx) {idx' : Index K G} (hstep : InsertStep idx x idx')
    (hapart : ∀ i, mergesInto idx x = some i → KeysApart idx x i) (i : Nat) (hi : minLevel < i) :
    (i + 1 < idx'.usedLevels → idx'.getLevel i = [] ∨ (idx'.getLevel i).length = 2 ^ i) ∧
      (i + 1 = idx'.usedLevels → idx'.getLevel i ≠ [] ∧ (idx'.getLevel i).length ≤ 2 ^ i) := by
  cases hstep with
  | duplicate _ heq => exact heq ▸ ⟨h.full i hi, h.top i hi⟩
  | buffered _ _ hused hlevels =>
    rw [hlevels, if_neg hi.ne', hused]
    exact ⟨fun hlast => h.full i hi (by omega), fun hlast => h.top i hi (by omega)⟩
  | merged n _ hbuffer hinto hn hused hempty hlevels =>
    obtain ⟨n', hn', -, hcases⟩ := h.merge_target hinto
    obtain rfl : n = n' := by omega
    have hlen := mergeUp_length hbuffer (hapart _ hinto)
    have hpos : 0 < (mergeUp idx.getLevel (extended idx x) n).length := by omega
    rw [hlevels, hused]
    obtain ⟨hlast, hsize⟩ | ⟨hnew, hsize⟩ := hcases
    · rw [max_eq_left (by omega)]
      split
      · next heq => exact ⟨fun _ => .inr (by rw [hlen, hsize, heq]), fun htop => by omega⟩
      · split
        · exact ⟨fun _ => .inl rfl, fun htop => by omega⟩
        · exact ⟨h.full i hi, h.top i hi⟩
    · rw [max_eq_right (by omega)]
      split
      · next heq =>
        refine ⟨fun htop => by omega, fun _ => ⟨List.ne_nil_of_length_pos hpos, ?_⟩⟩
        rw [hlen, heq]
        exact hsize
      · split
        · exact ⟨fun _ => .inl rfl, fun htop => by omega⟩
        · exact ⟨fun htop => by omega, fun htop => by omega⟩

/-- An insert of a fresh key adds its pair. -/
theorem Counter.insert_step (memory : Memory K) (h : Counter ops idx)
    (hfresh : ∀ y ∈ idx.items, y.key ≠ kv.key) :
    ∃ idx', insertPair ops memory idx kv = some idx' ∧ Counter ops idx' ∧
      InsertStep idx (.ofPair kv) idx' ∧ idx'.items.Perm (.ofPair kv :: idx.items) := by
  have hnew : isDuplicate idx (.ofPair kv) = false := by
    rw [Bool.eq_false_iff]
    intro hdup
    obtain ⟨y, hy, hpair⟩ := exists_of_isDuplicate hdup
    exact hfresh y ((mem_items h.toWellFormed).mpr ⟨_, hy⟩) (congrArg KeyValue.key hpair)
  have hapart : ∀ i, mergesInto idx (.ofPair kv) = some i → KeysApart idx (.ofPair kv) i :=
    fun i _ => h.keysApart (x := .ofPair kv) hfresh i
  have hempty : ∀ i, mergesInto idx (.ofPair kv) = some i → idx.getLevel i = [] := by
    intro i hi
    obtain ⟨-, -, hempty, -⟩ := h.merge_target hi
    exact hempty
  obtain ⟨idx', hidx', hbounded, hstep⟩ :=
    DynamicPgm.insert_step memory h.toBounded (Item.deleted_ofPair kv) hempty
  have hitems := hstep.items h.toBounded hbounded hnew hapart
  have hlevels := h.levels_step hstep hapart
  refine ⟨idx', hidx', ?_, hstep, hitems⟩
  refine ⟨hbounded, fun i hi => (hlevels i hi).1, fun i hi => (hlevels i hi).2, ?_⟩
  apply (hitems.pairwise_iff fun hne => hne.symm).mpr
  exact List.pairwise_cons.mpr ⟨fun y hy => (hfresh y hy).symm, h.unique⟩

theorem Counter.insert_fresh (memory : Memory K) (h : Counter ops idx)
    (hfresh : ∀ y ∈ idx.items, y.key ≠ kv.key) :
    ∃ idx', insertPair ops memory idx kv = some idx' ∧ Counter ops idx' ∧
      idx'.items.Perm (.ofPair kv :: idx.items) := by
  obtain ⟨idx', hidx', hcounter, -, hitems⟩ := h.insert_step memory hfresh
  exact ⟨idx', hidx', hcounter, hitems⟩

theorem lookup_eq_find (k : K) : idx.lookup k = idx.items.find? fun x => x.key = k := by
  rw [Index.items, List.find?_flatMap]
  rfl

/-- Under a key that occurs once, a lookup finds its value. -/
theorem Counter.lookup_mem (h : Counter ops idx) {y : Item K} (hy : y ∈ idx.items) :
    idx.lookup y.key = some y := by
  rw [lookup_eq_find]
  cases hfind : idx.items.find? fun x => x.key = y.key with
  | none => simpa using List.find?_eq_none.mp hfind y hy
  | some z =>
    have hkey : z.key = y.key := by simpa using List.find?_some hfind
    have hsymm : Std.Symm fun x y : Item K => x.key ≠ y.key := ⟨fun _ _ h => h.symm⟩
    by_contra hne
    refine h.unique.forall (List.mem_of_find?_eq_some hfind) hy ?_ hkey
    exact fun heq => hne (congrArg some heq)

theorem Counter.sorted_lt (h : Counter ops idx) (i : Nat) :
    (idx.getLevel i).Pairwise fun x y => x.key < y.key := by
  by_cases hi : i ∈ idx.levels
  · apply ((h.sorted i).and ((List.pairwise_flatMap.mp h.unique).1 i hi)).imp
    intro x y hxy
    exact lt_of_le_of_ne hxy.1 hxy.2
  · have hempty : idx.getLevel i = [] := by
      rw [List.eq_nil_iff_forall_not_mem]
      exact fun y hy => hi (level_of_mem h.toWellFormed hy)
    rw [hempty]
    exact .nil

theorem Counter.length_le (h : Counter ops idx) {i : Nat} (hi : minLevel < i) :
    (idx.getLevel i).length ≤ 2 ^ i := by
  obtain hlt | htop | hge := lt_trichotomy (i + 1) idx.usedLevels
  · obtain hempty | hfull := h.full i hi hlt
    · rw [hempty]
      exact Nat.zero_le _
    · exact hfull.le
  · exact (h.top i hi htop).2
  · rw [h.unused i (by omega)]
    exact Nat.zero_le _

/-- What the buffer and the levels below `i` hold, with the new item. -/
def mergedItems (idx : Index K G) (newItem : Item K) (i : Nat) : List (Item K) :=
  newItem :: (List.range' minLevel (i - minLevel)).flatMap idx.getLevel

theorem InsertStep.target_perm {idx' : Index K G} (h : InsertStep idx x idx') {i : Nat}
    (hi : mergesInto idx x = some i) (hapart : KeysApart idx x i) :
    (idx'.getLevel i).Perm (mergedItems idx x i) := by
  cases h with
  | duplicate hdup => simp [mergesInto, hdup] at hi
  | buffered hdup hroom => simp [mergesInto, hdup, hroom] at hi
  | merged n _ _ hinto _ _ _ hlevels =>
    obtain rfl : minLevel + 1 + n = i := Option.some.inj (hinto.symm.trans hi)
    have hrange : minLevel + 1 + n - minLevel = n + 1 := by omega
    rw [hlevels, if_pos rfl, mergedItems, hrange, List.range'_succ, List.flatMap_cons]
    exact mergeUp_extended_perm hapart

omit [LinearOrder K] in
theorem fresh_of_keys {kvs : List (KeyValue K)} (hitems : (idx.items.map Item.pair).Perm kvs)
    (hkv : kv.key ∉ keys kvs) : ∀ y ∈ idx.items, y.key ≠ kv.key := by
  intro y hy heq
  apply hkv
  rw [← heq]
  exact mem_keys_of_mem (hitems.mem_iff.mp (List.mem_map_of_mem (f := Item.pair) hy))

/-- Inserts of distinct fresh keys keep the levels counting, and lose and double no pair. -/
theorem run_counter (memory : Memory K) {start : Index K G} {bulk kvs : List (KeyValue K)}
    (hstart : Start ops start bulk) (hkeys : (keys (bulk ++ kvs)).Nodup) :
    ∃ idx, run (insertPair ops memory) start kvs = some idx ∧ Counter ops idx ∧
      (idx.items.map Item.pair).Perm (bulk ++ kvs) := by
  rw [keys_append, List.nodup_append] at hkeys
  obtain ⟨hbulk, hkvs, hapart⟩ := hkeys
  apply run_total (P := fun pre idx => Counter ops idx ∧ (idx.items.map Item.pair).Perm (bulk ++ pre))
  · rw [hstart.items, List.append_nil]
    exact ⟨hstart.counter hbulk, .refl _⟩
  · intro pre idx kv hpre _ ⟨hidx, hitems⟩
    have hnodup : (keys (pre ++ [kv])).Nodup := hkvs.sublist (hpre.sublist.map KeyValue.key)
    rw [keys_append, List.nodup_append] at hnodup
    have hkv : kv.key ∉ keys (bulk ++ pre) := by
      rw [keys_append, List.mem_append, not_or]
      constructor
      · exact fun hmem => hapart _ hmem _ (mem_keys_of_mem (hpre.subset (by simp))) rfl
      · exact fun hmem => hnodup.2.2 _ hmem _ List.mem_cons_self rfl
    obtain ⟨idx', hidx', hcounter, hperm⟩ := hidx.insert_fresh memory (fresh_of_keys hitems hkv)
    refine ⟨idx', hidx', hcounter, ?_⟩
    rw [← List.append_assoc]
    apply (hperm.map Item.pair).trans
    exact (hitems.cons kv).trans (List.perm_append_singleton kv _).symm

/-- With unique keys the levels count in binary: every merge finds its target empty and keeps all
it merges. -/
theorem insert_counts_in_binary (memory : Memory K) {start : Index K G}
    {bulk kvs : List (KeyValue K)} (hstart : Start ops start bulk)
    (hkeys : (keys (bulk ++ kvs)).Nodup) :
    ∃ idx, run (insertPair ops memory) start kvs = some idx ∧
      (∀ i, (idx.getLevel i).Pairwise fun x y => x.key < y.key) ∧
      (idx.getLevel minLevel).length ≤ 2 ^ 7 - 1 ∧
      (∀ i, minLevel < i → (idx.getLevel i).length ≤ 2 ^ i) ∧
      (∀ i, idx.usedLevels ≤ i → idx.getLevel i = []) ∧
      (∀ i, minLevel < i → i + 1 < idx.usedLevels →
        idx.getLevel i = [] ∨ (idx.getLevel i).length = 2 ^ i) ∧
      (idx.items.map Item.pair).Perm (bulk ++ kvs) ∧ (∀ x ∈ idx.items, x.deleted = false) ∧
      ∀ kv, kv.key ∉ keys (bulk ++ kvs) → ∀ i, mergesInto idx (.ofPair kv) = some i →
        idx.getLevel i = [] ∧ ∃ idx', insertPair ops memory idx kv = some idx' ∧
          (idx'.getLevel i).Perm (mergedItems idx (.ofPair kv) i) := by
  obtain ⟨idx, hrun, hidx, hitems⟩ := run_counter memory hstart hkeys
  refine ⟨idx, hrun, hidx.sorted_lt, hidx.buffer_length, fun i => hidx.length_le, hidx.unused,
    hidx.full, hitems, ?_, ?_⟩
  · intro y hy
    obtain ⟨i, hi⟩ := (mem_items hidx.toWellFormed).mp hy
    exact hidx.alive i y hi
  · intro kv hkv i hi
    have hfresh := fresh_of_keys hitems hkv
    obtain ⟨n, -, hempty, -⟩ := hidx.merge_target hi
    obtain ⟨idx', hidx', -, hstep, -⟩ := hidx.insert_step memory hfresh
    exact ⟨hempty, idx', hidx', hstep.target_perm hi (hidx.keysApart (x := .ofPair kv) hfresh i)⟩

theorem insert_counts_in_binary_two :
    ∃ idx, ((Index.empty 10).bind fun start => run
        (insertPair (Pgm.exact : Pgm Nat (List Nat)) fun _ => ⟨0, false, 0⟩) start
          [⟨2, 20⟩, ⟨1, 10⟩]) = some idx ∧
      (idx.getLevel minLevel).length ≤ 2 ^ 7 - 1 ∧
      (idx.items.map Item.pair).Perm [⟨2, 20⟩, ⟨1, 10⟩] := by
  obtain ⟨start, hstart⟩ : ∃ start : Index Nat (List Nat), Index.empty 10 = some start := ⟨_, rfl⟩
  have hkeys : (keys ([] ++ [⟨2, 20⟩, ⟨1, 10⟩] : List (KeyValue Nat))).Nodup := by decide
  have hempty : Start (Pgm.exact : Pgm Nat (List Nat)) start [] := .empty hstart
  obtain ⟨idx, hrun, -, hbuffer, -, -, -, hitems, -⟩ :=
    insert_counts_in_binary (fun _ => ⟨0, false, 0⟩) hempty hkeys
  exact ⟨idx, by rw [hstart]; exact hrun, hbuffer, hitems⟩

end LearnedIndex.DynamicPgm
