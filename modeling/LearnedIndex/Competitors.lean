import LearnedIndex.DynamicPgm.Lookup

/-! The lookups of the four wrappers that the benchmark compares, on what `Build` loaded. -/

universe u v w x y

namespace LearnedIndex.Competitors

open Util SortedList

variable {K : Type u} {G : Type v} {M : Type w} [LinearOrder K]

/-- The wrapper of the static PGM-index, with a copy of the data. -/
structure PGM (K : Type u) (G : Type v) where
  data : List (KeyValue K)
  pgm : G

namespace PGM

def build (ops : DynamicPgm.Pgm K G) (data : List (KeyValue K)) : PGM K G where
  data := data
  pgm := ops.build (keys data)

/-- The answer is the position of the pair. -/
def equalityLookup (search : Search K) (ops : DynamicPgm.Pgm K G) (index : PGM K G) (k : K) : UInt64 :=
  let p := ops.findApproximatePosition index.pgm k
  let it := search.lowerBound (keys index.data) p.lo p.hi k p.pos
  match index.data[it]? with
  | none => overflow
  | some kv => if kv.key ≠ k then overflow else UInt64.ofNat it

def rangeQuery (search : Search K) (ops : DynamicPgm.Pgm K G) (index : PGM K G) (lo hi : K) : UInt64 :=
  let p := ops.findApproximatePosition index.pgm lo
  let it := search.lowerBound (keys index.data) p.lo p.hi lo p.pos
  let qualifying := ((index.data.drop it).dropWhile fun kv => decide (kv.key < lo)).takeWhile fun kv => decide (kv.key ≤ hi)
  (qualifying.map KeyValue.value).sum

end PGM

/-- The map inside a wrapper: LIPP or the B+tree. -/
structure MapOps (K : Type u) (M : Type w) where
  bulkLoad : List (KeyValue K) → M
  find : M → K → Option UInt64

/-- A map finds what was loaded, and nothing else. -/
def MapOps.Correct (ops : MapOps K M) : Prop :=
  ∀ data, (keys data).Pairwise (· < ·) → ∀ k v,
    ops.find (ops.bulkLoad data) k = some v ↔ ⟨k, v⟩ ∈ data

namespace Lipp

def build (ops : MapOps K M) (data : List (KeyValue K)) : M := ops.bulkLoad data

def equalityLookup (ops : MapOps K M) (lipp : M) (k : K) : UInt64 :=
  match ops.find lipp k with
  | none => notFound
  | some value => value

end Lipp

namespace STXBTree

def build (ops : MapOps K M) (data : List (KeyValue K)) : M := ops.bulkLoad data

def equalityLookup (ops : MapOps K M) (btree : M) (k : K) : UInt64 :=
  match ops.find btree k with
  | none => notFound
  | some value => value

end STXBTree

/-- What every wrapper should answer. -/
structure Answers (data : List (KeyValue K)) (k : K) (answer : UInt64) : Prop where
  stored : ∀ v, ⟨k, v⟩ ∈ data → answer = v
  absent : k ∉ keys data → answer = notFound

variable {data : List (KeyValue K)} {k : K}

omit [LinearOrder K] in
theorem answers_of_mem {v answer : UInt64} (hdata : (keys data).Nodup) (hv : ⟨k, v⟩ ∈ data) :
    Answers data k answer ↔ answer = v := by
  constructor
  · exact fun h => h.stored v hv
  · rintro rfl
    refine ⟨fun v' hv' => ?_, fun hk => absurd (mem_keys_of_mem hv) hk⟩
    exact congrArg KeyValue.value (eq_of_key_eq hdata hv hv' rfl)

omit [LinearOrder K] in
theorem answers_of_not_mem {answer : UInt64} (hk : k ∉ keys data) :
    Answers data k answer ↔ answer = notFound := by
  constructor
  · exact fun h => h.absent hk
  · exact fun h => ⟨fun v hv => absurd (mem_keys_of_mem hv) hk, fun _ => h⟩

theorem Lipp.answers {ops : MapOps K M} (h : ops.Correct) (hdata : (keys data).Pairwise (· < ·))
    (k : K) : Answers data k (Lipp.equalityLookup ops (Lipp.build ops data) k) := by
  unfold Lipp.equalityLookup Lipp.build
  cases hfind : ops.find (ops.bulkLoad data) k with
  | none =>
    rw [answers_of_not_mem]
    intro hk
    obtain ⟨kv, hkv, rfl⟩ := mem_keys.mp hk
    rw [(h data hdata kv.key kv.value).mpr hkv] at hfind
    cases hfind
  | some v =>
    rw [answers_of_mem (hdata.imp ne_of_lt) ((h data hdata k v).mp hfind)]

/-- The B+tree's wrapper does with its map what LIPP's does. -/
theorem STXBTree.answers {ops : MapOps K M} (h : ops.Correct) (hdata : (keys data).Pairwise (· < ·))
    (k : K) : Answers data k (STXBTree.equalityLookup ops (STXBTree.build ops data) k) :=
  Lipp.answers h hdata k

theorem dynamicPgm_answers (search : Search K) {ops : DynamicPgm.Pgm K G} (hwindow : ops.Window)
    (hdata : (keys data).Pairwise (· < ·)) {idx : DynamicPgm.Index K G}
    (h : DynamicPgm.Index.ofSorted ops data = some idx) (k : K) :
    Answers data k (DynamicPgm.equalityLookup search ops idx k) := by
  have hsorted : Sorted KeyValue.key data := List.pairwise_map.mp (hdata.imp le_of_lt)
  have hbounded := DynamicPgm.ofSorted_bounded hsorted h
  rw [DynamicPgm.equalityLookup, DynamicPgm.find_eq_lookup search (hwindow.guided hbounded.toWellFormed)
    hbounded.toWellFormed, DynamicPgm.ofSorted_lookup h]
  cases hfind : DynamicPgm.lookupIn (data.map DynamicPgm.Item.ofPair) k with
  | none =>
    rw [DynamicPgm.lookupIn_eq_none] at hfind
    rw [answers_of_not_mem]
    · rfl
    · intro hk
      obtain ⟨kv, hkv, rfl⟩ := mem_keys.mp hk
      exact hfind _ (List.mem_map_of_mem hkv) rfl
  | some y =>
    obtain ⟨kv, hkv, rfl⟩ := List.mem_map.mp (List.mem_of_find?_eq_some hfind)
    have hkey := List.find?_some hfind
    obtain rfl : kv.key = k := of_decide_eq_true hkey
    rw [answers_of_mem (hdata.imp ne_of_lt) hkv]
    rfl

/-- The lower bound of a key that is there is its pair. -/
theorem getElem?_rank (hdata : (keys data).Pairwise (· < ·)) (k : K) :
    (∃ kv, data[rank (keys data) k]? = some kv ∧ kv.key = k) ↔ k ∈ keys data := by
  have hsorted : Sorted KeyValue.key data := List.pairwise_map.mp (hdata.imp le_of_lt)
  rw [← List.head?_drop, keys, drop_rank_map, head_lowerBound_iff hsorted]
  exact mem_keys.symm

theorem PGM.equalityLookup_eq (search : Search K) {ops : DynamicPgm.Pgm K G} (hwindow : ops.Window)
    (hdata : (keys data).Pairwise (· < ·)) (k : K) :
    PGM.equalityLookup search ops (PGM.build ops data) k =
      if k ∈ keys data then UInt64.ofNat (rank (keys data) k) else overflow := by
  have hsorted := hdata.imp le_of_lt
  obtain ⟨hlo, hpos, hhi, hrankLo, hrankHi⟩ := hwindow (keys data) k hsorted
  simp only [PGM.equalityLookup, PGM.build, search.lowerBound_eq hsorted hlo hpos hhi,
    min_eq_right hrankHi, max_eq_right hrankLo]
  have hrank := getElem?_rank hdata k
  cases hkv : data[rank (keys data) k]? with
  | none =>
    rw [if_neg]
    rw [← hrank, hkv]
    rintro ⟨kv, h, -⟩
    cases h
  | some kv =>
    have hmem : kv.key = k ↔ k ∈ keys data := by
      rw [← hrank, hkv]
      simp
    simp only [ite_not, hmem]

/-- The static PGM answers with a position, which is right where values are positions. -/
theorem PGM.answers_iff (search : Search K) {ops : DynamicPgm.Pgm K G} (hwindow : ops.Window)
    (hdata : (keys data).Pairwise (· < ·)) (k : K) :
    Answers data k (PGM.equalityLookup search ops (PGM.build ops data) k) ↔
      ∀ i kv, data[i]? = some kv → kv.key = k → kv.value = UInt64.ofNat i := by
  have hnodup : (keys data).Nodup := hdata.imp ne_of_lt
  rw [PGM.equalityLookup_eq search hwindow hdata]
  by_cases hk : k ∈ keys data
  · obtain ⟨kv, hkv, rfl⟩ := (getElem?_rank hdata k).mpr hk
    rw [if_pos hk, answers_of_mem hnodup (List.mem_of_getElem? hkv)]
    constructor
    · intro h i kv' hkv' hkey
      have hlt : i < (keys data).length := by
        rw [keys, List.length_map]
        exact (List.getElem?_eq_some_iff.mp hkv').1
      have hi : i = rank (keys data) kv.key := by
        apply (List.getElem?_inj hlt hnodup).mp
        rw [keys, List.getElem?_map, List.getElem?_map, hkv', ← keys, hkv, Option.map_some,
          Option.map_some, hkey]
      rw [← hi, hkv'] at hkv
      rw [hi, Option.some.inj hkv, h]
    · exact fun h => (h _ kv hkv rfl).symm
  · rw [if_neg hk, answers_of_not_mem hk]
    constructor
    · rintro - i kv hkv rfl
      exact absurd (mem_keys_of_mem (List.mem_of_getElem? hkv)) hk
    · exact fun _ => rfl

/-- All four lookups answer right exactly where the stored value is the position of the pair. -/
theorem lookups_agree_iff {H : Type x} {L : Type y} (search : Search K)
    {pgm : DynamicPgm.Pgm K G} (hpgm : pgm.Window) {levelPgm : DynamicPgm.Pgm K H}
    (hlevel : levelPgm.Window) {lipp : MapOps K L} (hlipp : lipp.Correct) {btree : MapOps K M}
    (hbtree : btree.Correct) (hdata : (keys data).Pairwise (· < ·)) (hlen : 2 ^ 14 < data.length)
    (k : K) :
    ∃ idx, DynamicPgm.Index.ofSorted levelPgm data = some idx ∧
      ((Answers data k (PGM.equalityLookup search pgm (PGM.build pgm data) k) ∧
        Answers data k (DynamicPgm.equalityLookup search levelPgm idx k) ∧
        Answers data k (Lipp.equalityLookup lipp (Lipp.build lipp data) k) ∧
        Answers data k (STXBTree.equalityLookup btree (STXBTree.build btree data) k)) ↔
      ∀ i kv, data[i]? = some kv → kv.key = k → kv.value = UInt64.ofNat i) := by
  obtain ⟨idx, hidx⟩ := DynamicPgm.ofSorted_isSome levelPgm hlen
  refine ⟨idx, hidx, ?_⟩
  rw [← PGM.answers_iff search hpgm hdata]
  constructor
  · exact fun h => h.1
  · intro h
    exact ⟨h, dynamicPgm_answers search hlevel hdata hidx k, Lipp.answers hlipp hdata k,
      STXBTree.answers hbtree hdata k⟩

/-- A map that keeps the pairs as they are. -/
def listMap : MapOps K (List (KeyValue K)) where
  bulkLoad data := data
  find data k := (data.find? fun kv => kv.key = k).map KeyValue.value

theorem listMap_correct : (listMap : MapOps K (List (KeyValue K))).Correct := by
  intro data hdata k v
  simp only [listMap, Option.map_eq_some_iff]
  constructor
  · rintro ⟨kv, hkv, rfl⟩
    have hkey := List.find?_some hkv
    obtain rfl : kv.key = k := of_decide_eq_true hkey
    exact List.mem_of_find?_eq_some hkv
  · intro hv
    cases hfind : data.find? fun kv => decide (kv.key = k) with
    | none => exact absurd (List.find?_eq_none.mp hfind _ hv) (by simp)
    | some kv =>
      have hkey := List.find?_some hfind
      refine ⟨kv, rfl, congrArg KeyValue.value (eq_of_key_eq (hdata.imp ne_of_lt)
        (List.mem_of_find?_eq_some hfind) hv (of_decide_eq_true hkey))⟩

/-- Every second pair of a dataset with the keys 0, 1, 2, … -/
def sampled (n : Nat) : List (KeyValue Nat) :=
  (List.range n).map fun i => ⟨2 * i + 1, UInt64.ofNat (2 * i + 1)⟩

theorem sampled_keys (n : Nat) : (keys (sampled n)).Pairwise (· < ·) := by
  rw [keys, sampled, List.map_map, List.pairwise_map]
  refine List.pairwise_lt_range.imp fun hij => ?_
  simp only [Function.comp_apply]
  omega

theorem lookups_agree_absent :
    Answers (sampled (2 ^ 14 + 1)) 2 (PGM.equalityLookup BranchingBinarySearch.search
      DynamicPgm.Pgm.exact (PGM.build DynamicPgm.Pgm.exact (sampled (2 ^ 14 + 1))) 2) := by
  obtain ⟨idx, -, h⟩ := lookups_agree_iff BranchingBinarySearch.search
    DynamicPgm.Pgm.exact_window DynamicPgm.Pgm.exact_window listMap_correct listMap_correct
    (sampled_keys (2 ^ 14 + 1)) (by rw [sampled, List.length_map, List.length_range]; decide) 2
  apply And.left
  apply h.mpr
  intro i kv hkv hkey
  obtain ⟨j, -, rfl⟩ := List.mem_map.mp (List.mem_of_getElem? hkv)
  simp only at hkey
  omega

/-- The first pair loaded is `(1, 1)`: the static PGM answers 0, the others 1. -/
theorem pgm_answers_position :
    PGM.equalityLookup BranchingBinarySearch.search DynamicPgm.Pgm.exact
        (PGM.build DynamicPgm.Pgm.exact (sampled (2 ^ 14 + 1))) 1 = 0 ∧
      (∃ idx, DynamicPgm.Index.ofSorted DynamicPgm.Pgm.exact (sampled (2 ^ 14 + 1)) = some idx ∧
        DynamicPgm.equalityLookup BranchingBinarySearch.search DynamicPgm.Pgm.exact idx 1 = 1) ∧
      Lipp.equalityLookup listMap (Lipp.build listMap (sampled (2 ^ 14 + 1))) 1 = 1 ∧
      STXBTree.equalityLookup listMap (STXBTree.build listMap (sampled (2 ^ 14 + 1))) 1 = 1 := by
  have hdata := sampled_keys (2 ^ 14 + 1)
  have hcons : sampled (2 ^ 14 + 1) =
      ⟨1, 1⟩ :: (List.range (2 ^ 14)).map fun i => ⟨2 * (i + 1) + 1, UInt64.ofNat (2 * (i + 1) + 1)⟩ := by
    rw [sampled, List.range_succ_eq_map, List.map_cons, List.map_map]
    rfl
  have hmem : ⟨1, 1⟩ ∈ sampled (2 ^ 14 + 1) := hcons ▸ List.mem_cons_self
  have hnodup := hdata.imp ne_of_lt
  have hlen : 2 ^ 14 < (sampled (2 ^ 14 + 1)).length := by
    rw [sampled, List.length_map, List.length_range]
    decide
  refine ⟨?_, ?_, ?_, ?_⟩
  · rw [PGM.equalityLookup_eq _ DynamicPgm.Pgm.exact_window hdata, if_pos (mem_keys_of_mem hmem), hcons]
    rfl
  · obtain ⟨idx, hidx⟩ := DynamicPgm.ofSorted_isSome DynamicPgm.Pgm.exact hlen
    refine ⟨idx, hidx, ?_⟩
    exact (dynamicPgm_answers _ DynamicPgm.Pgm.exact_window hdata hidx 1).stored 1 hmem
  · exact (Lipp.answers listMap_correct hdata 1).stored 1 hmem
  · exact (STXBTree.answers listMap_correct hdata 1).stored 1 hmem

end LearnedIndex.Competitors
