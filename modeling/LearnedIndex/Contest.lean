import LearnedIndex.BTree.STXBTree
import LearnedIndex.Competitors
import LearnedIndex.DynamicPgm.Unique
import LearnedIndex.Lipp.Range
import LearnedIndex.Searches.Classes
import LearnedIndex.StaticPgm.Search
import LearnedIndex.Workload.DoOps
import Mathlib.Data.List.DropRight

/-! The wrappers under the benchmark: each passes the workloads that are generated for one thread,
on its own terms. -/

namespace LearnedIndex

open Util SortedList Workload Double

variable {K D : Type} [LinearOrder K]

namespace BTree.STXBTree

variable (t : Traits) (search : Search K)

def index : Workload.Index K (Btree K) where
  build := build t
  equalityLookup := equalityLookup search
  rangeQuery := rangeQuery search
  insert := insert t search

/-- The tree holds these pairs, in some order. -/
def HoldsPairs (t : Traits) (tree : Btree K) (kvs : List (KeyValue K)) : Prop := ∃ xs, tree.Stores t xs ∧ xs.Perm kvs

theorem serves : (index t search).Serves .everything (HoldsPairs t) where
  build hdata _ := .of_returns ((Btree.bulkLoad_stores hdata).mono fun _ hstores => ⟨_, hstores, .refl _⟩)
  equalityLookup := by
    rintro tree kvs ⟨xs, hstores, hperm⟩ key
    change ReturnsUnless _ (equalityLookup search tree key) _
    rw [equalityLookup_eq hstores]
    apply ReturnsUnless.some_iff.mpr
    cases hfind : xs.find? fun x => x.key = key with
    | none =>
      refine .inr ⟨fun hkey => ?_, rfl⟩
      obtain ⟨kv, hkv, rfl⟩ := mem_keys.mp hkey
      simpa using List.find?_eq_none.mp hfind kv (hperm.mem_iff.mpr hkv)
    | some kv =>
      have hkey : kv.key = key := by simpa using List.find?_some hfind
      refine .inl (hperm.mem_iff.mp ?_)
      rw [← hkey]
      exact List.mem_of_find?_eq_some hfind
  rangeQuery := by
    rintro tree kvs ⟨xs, hstores, hperm⟩ lo hi
    change ReturnsUnless _ (rangeQuery search tree lo hi) _
    rw [rangeQuery_eq hstores, Multiset.coe_eq_coe.mpr hperm]
    exact ReturnsUnless.some_iff.mpr rfl
  insert := by
    rintro tree kvs kv ⟨xs, hstores, hperm⟩ -
    apply ReturnsUnless.of_returns
    apply (insert_spec hstores kv).mono
    intro tree' hstores'
    refine ⟨_, hstores', (insertLower_perm kv).trans ?_⟩
    exact (hperm.cons kv).trans (List.perm_append_singleton kv kvs).symm

end BTree.STXBTree

namespace DynamicPgm

variable {G : Type} (search : Search K) {ops : Pgm K G} (memory : Memory K)

def index (ops : Pgm K G) : Workload.Index K (DynamicPgm.Index K G) where
  build := Index.ofSorted ops
  equalityLookup idx key := some (equalityLookup search ops idx key)
  rangeQuery := rangeQuery search ops
  insert := insertPair ops memory

/-- The levels count, and hold these pairs. -/
def HoldsPairs (ops : Pgm K G) (idx : DynamicPgm.Index K G) (kvs : List (KeyValue K)) : Prop :=
  Counter ops idx ∧ (idx.items.map Item.pair).Perm kvs

variable (good : List (KeyValue K) → Prop)

/-- The terms of an index for unique keys that is good for some lists of pairs. -/
def terms : Terms K where
  stops := False
  loads data := (Terms.unique False (2 ^ 14 + 1)).loads data ∧ good data
  admits kvs kv := kv.key ∉ keys kvs ∧ good (kvs ++ [kv])

theorem serves (hguided : ∀ {idx kvs}, HoldsPairs ops idx kvs → good kvs → Guided ops idx) :
    (index search memory ops).Serves (terms good) fun idx kvs => HoldsPairs ops idx kvs ∧ good kvs where
  build := by
    rintro data hdata ⟨⟨hlen, hkeys⟩, hgood⟩
    obtain ⟨idx, hidx⟩ := ofSorted_isSome ops hlen
    change ReturnsUnless _ (Index.ofSorted ops data) _
    rw [hidx]
    refine ReturnsUnless.some_iff.mpr ⟨⟨ofSorted_counter hlen hdata hkeys hidx, ?_⟩, hgood⟩
    rw [(Start.bulk hlen hdata hidx).items]
  equalityLookup := by
    rintro idx kvs ⟨⟨hcounter, hperm⟩, hgood⟩ key
    apply ReturnsUnless.some_iff.mpr
    rw [equalityLookup, find_eq_lookup search (hguided ⟨hcounter, hperm⟩ hgood) hcounter.toWellFormed]
    by_cases hkey : key ∈ keys kvs
    · obtain ⟨kv, hkv, rfl⟩ := mem_keys.mp hkey
      obtain ⟨y, hy, rfl⟩ := List.mem_map.mp (hperm.mem_iff.mpr hkv)
      change (⟨y.key, (idx.lookup y.key).elim overflow Item.value⟩ : KeyValue K) ∈ kvs ∨ _
      rw [hcounter.lookup_mem hy]
      exact .inl hkv
    · refine .inr ⟨hkey, ?_⟩
      cases hlookup : idx.lookup key with
      | none => rfl
      | some y =>
        rw [lookup_eq_find] at hlookup
        obtain rfl : y.key = key := by simpa using List.find?_some hlookup
        have hmem := List.mem_map_of_mem (f := Item.pair) (List.mem_of_find?_eq_some hlookup)
        exact absurd (mem_keys_of_mem (hperm.mem_iff.mp hmem)) hkey
  rangeQuery := by
    rintro idx kvs ⟨⟨hcounter, hperm⟩, hgood⟩ lo hi
    change ReturnsUnless _ (rangeQuery search ops idx lo hi) _
    rw [rangeQuery_eq search (hguided ⟨hcounter, hperm⟩ hgood) hcounter.toWellFormed, Multiset.coe_eq_coe.mpr hperm]
    exact ReturnsUnless.some_iff.mpr rfl
  insert := by
    rintro idx kvs kv ⟨⟨hcounter, hperm⟩, -⟩ ⟨hfresh, hgood⟩
    obtain ⟨idx', hidx', hcounter', hperm'⟩ := hcounter.insert_fresh memory (fresh_of_keys hperm hfresh)
    change ReturnsUnless _ (insertPair ops memory idx kv) _
    rw [hidx']
    refine ReturnsUnless.some_iff.mpr ⟨⟨hcounter', (hperm'.map Item.pair).trans ?_⟩, hgood⟩
    exact (hperm.cons kv).trans (List.perm_append_singleton kv kvs).symm

end DynamicPgm

namespace Lipp

variable (fit : Fit K) (fuel : Nat)

/-- What a call returns, if it does. -/
def returnsSome : Run (LIPP K) → Option (LIPP K)
  | .returns lipp => some lipp
  | _ => none

/-- `fuel` bounds the loops of a range query. -/
def index : Workload.Index K (LIPP K) where
  build data := returnsSome (LIPP.build fit .new data)
  equalityLookup := LIPP.equalityLookup
  rangeQuery lipp := rangeQuery fuel lipp.root
  insert lipp kv := returnsSome (lipp.insert fit kv)

/-- The tree holds these pairs, and its bitmaps end with its items. -/
def HoldsPairs (lipp : LIPP K) (kvs : List (KeyValue K)) : Prop := lipp.Inv kvs ∧ lipp.root.Padded

theorem Ends.returnsUnless {P : LIPP K → Prop} {r : Run (LIPP K)} (h : LIPP.Ends fit P r) :
    ReturnsUnless True (returnsSome r) P := by
  cases r with
  | returns lipp => exact h
  | exits e => trivial
  | diverges => trivial

theorem serves : (index fit fuel).Serves (.unique True 2) HoldsPairs where
  build := by
    rintro data hdata ⟨hlen, hkeys⟩
    have hascending : Ascending data :=
      (hdata.and (List.pairwise_map.mp hkeys)).imp fun hxy => lt_of_le_of_ne hxy.1 hxy.2
    obtain ⟨⟨pairs, hroot, -⟩, hpool⟩ := (LIPP.inv_new : (LIPP.new : LIPP K).Inv [])
    apply Ends.returnsUnless fit
    apply (LIPP.Ends.of_root hpool (bulkLoad_padded hascending hlen hroot)).mono
    rintro lipp ⟨⟨hroot', hpadded⟩, hpool'⟩
    exact ⟨⟨⟨data, hroot', .refl _⟩, hpool'⟩, hpadded⟩
  equalityLookup := by
    rintro lipp kvs ⟨hinv, -⟩ key
    change ReturnsUnless _ (lipp.equalityLookup key) _
    have hcorrect := hinv.correct
    by_cases hkey : key ∈ keys kvs
    · obtain ⟨kv, hkv, rfl⟩ := mem_keys.mp hkey
      rw [hcorrect.lookup_mem kv hkv]
      exact ReturnsUnless.some_iff.mpr (.inl hkv)
    · rw [hcorrect.lookup_absent key fun kv hkv heq => hkey (heq ▸ mem_keys_of_mem hkv)]
      exact ReturnsUnless.some_iff.mpr (.inr ⟨hkey, rfl⟩)
  rangeQuery := by
    rintro lipp kvs ⟨⟨⟨pairs, hroot, hperm⟩, -⟩, hpadded⟩ lo hi
    have hsums := hroot.sums hperm hpadded lo hi
    change ReturnsUnless _ (rangeQuery fuel lipp.root lo hi) _
    cases hrange : rangeQuery fuel lipp.root lo hi with
    | none => trivial
    | some answer => exact hsums.eq hrange
  insert := by
    rintro lipp kvs kv ⟨⟨⟨pairs, hroot, hperm⟩, hpool⟩, hpadded⟩ hfresh
    have hkey : ∀ x ∈ pairs, x.key ≠ kv.key := fun x hx heq => hfresh (heq ▸ mem_keys_of_mem (hperm.subset hx))
    apply Ends.returnsUnless fit
    apply (LIPP.Ends.of_root hpool (insertTree_yields hkey hroot)).mono
    rintro lipp' ⟨⟨⟨pairs', hroot', hperm'⟩, hend⟩, hpool'⟩
    refine ⟨⟨⟨pairs', hroot', ?_⟩, hpool'⟩, ?_⟩
    · exact (hperm'.trans (hperm.cons kv)).trans (List.perm_append_singleton kv kvs).symm
    · obtain hframed | hpadded' := hend
      · exact hframed.padded hpadded
      · exact hpadded'

end Lipp

namespace Competitors.PGM

variable {G : Type} (search : Search K) {ops : DynamicPgm.Pgm K G}

/-- `Insert` of the base class does nothing. -/
def index (ops : DynamicPgm.Pgm K G) : Workload.Index K (PGM K G) where
  build data := some (build ops data)
  equalityLookup index key := some (equalityLookup search ops index key)
  rangeQuery index lo hi := some (rangeQuery search ops index lo hi)
  insert index _ := some index

/-- The terms of an index whose values are positions. -/
def terms (ops : DynamicPgm.Pgm K G) : Terms K where
  stops := False
  loads data := (∃ ks, data = addValues ks) ∧ ops.Guides (keys data)
  admits _ _ := False

/-- The index was built from these pairs. -/
def HoldsPairs (ops : DynamicPgm.Pgm K G) (index : PGM K G) (kvs : List (KeyValue K)) : Prop :=
  index = build ops kvs ∧ Sorted KeyValue.key kvs ∧ (terms ops).loads kvs

/-- The search in the range does not go past the lower bound, and stops short of it only for keys
that are not there. -/
theorem search_range {kvs : List (KeyValue K)} (hguides : ops.Guides (keys kvs)) (hdata : Sorted KeyValue.key kvs) (key : K) :
    let p := ops.findApproximatePosition (ops.build (keys kvs)) key
    let it := search.lowerBound (keys kvs) p.lo p.hi key p.pos
    it ≤ rank (keys kvs) key ∧ (key ∈ keys kvs → it = rank (keys kvs) key) := by
  have hks : (keys kvs).Pairwise (· ≤ ·) := List.pairwise_map.mpr hdata
  obtain ⟨hlo, hpos, hhi, hrankLo, hrankHi⟩ := hguides key
  dsimp only
  rw [search.lowerBound_eq hks hlo hpos hhi]
  refine ⟨max_le hrankLo (min_le_right _ _), fun hkey => ?_⟩
  rw [min_eq_right (hrankHi hkey), max_eq_right hrankLo]

theorem serves : (index search ops).Serves (terms ops) (HoldsPairs ops) where
  build hdata hloads := ReturnsUnless.some_iff.mpr ⟨rfl, hdata, hloads⟩
  equalityLookup := by
    rintro _ kvs ⟨rfl, hdata, ⟨ks, hks⟩, hguides⟩ key
    obtain ⟨-, hfound⟩ := search_range search hguides hdata key
    apply ReturnsUnless.some_iff.mpr
    simp only [equalityLookup, build]
    generalize search.lowerBound (keys kvs) _ _ key _ = it at *
    by_cases hmem : key ∈ keys kvs
    · obtain ⟨kv, hkv, hkey⟩ : ∃ kv, kvs[rank (keys kvs) key]? = some kv ∧ kv.key = key := by
        rw [← List.head?_drop, keys, drop_rank_map, head_lowerBound_iff hdata]
        exact mem_keys.mp hmem
      have hvalue : kv.value = UInt64.ofNat (rank (keys kvs) key) := by
        have hat := hkv
        rw [hks, addValues, List.getElem?_mapIdx, Option.map_eq_some_iff] at hat
        obtain ⟨k, -, rfl⟩ := hat
        rw [hks, addValues]
      rw [hfound hmem, hkv]
      dsimp only
      rw [if_neg (not_not.mpr hkey), ← hvalue, ← hkey]
      exact .inl (List.mem_of_getElem? hkv)
    · refine .inr ⟨hmem, ?_⟩
      cases hkv : kvs[it]? with
      | none => rfl
      | some kv => exact if_pos fun hkey : kv.key = key => hmem (hkey ▸ mem_keys.mpr ⟨kv, List.mem_of_getElem? hkv, rfl⟩)
  rangeQuery := by
    rintro _ kvs ⟨rfl, hdata, -, hguides⟩ lo hi
    obtain ⟨hle, -⟩ := search_range search hguides hdata lo
    apply ReturnsUnless.some_iff.mpr
    simp only [rangeQuery, build]
    rw [dropWhile_drop hle, BTree.rangeSum_eq hdata]
  insert _ hadmits := hadmits.elim

end Competitors.PGM

namespace StaticPgm

variable (method : SearchMethod) (w ε recursiveError : Nat)

/-- The static index inside a wrapper.  A range without an index is never asked for: see `guides`. -/
def pgm : DynamicPgm.Pgm Nat (Option PGMIndex) where
  empty := none
  build := PGMIndex.build w ε recursiveError
  findApproximatePosition idx key :=
    (idx.bind fun idx => PGMIndex.findApproximatePosition method w ε recursiveError idx key).getD ⟨0, 0, 0⟩

/-- The search class that the index is searched with, on the data. -/
def SearchMethod.searchClass : Search Nat := Searches.classOf method.search method.search_spec

variable {w ε}

theorem guides {ks : List Nat} (hsorted : ks.Pairwise (· ≤ ·)) (hkeys : ∀ k ∈ ks, k < maxKey w) (hne : ks ≠ []) (hε : 0 < ε)
    (hsize : ks.length + 1 < 2 ^ 31) : (pgm method w ε recursiveError).Guides ks := by
  intro key
  obtain ⟨idx, hbuild, hready⟩ : Returns (PGMIndex.build w ε recursiveError ks) (Ready w ε recursiveError ks) :=
    build_spec hsorted hkeys hne hε hsize
  obtain ⟨range, hfind, hrange⟩ := hready.range method hsorted hkeys hne key
  simp only [pgm, hbuild, Option.bind_some, hfind, Option.getD_some]
  exact ⟨hrange.lo_le, hrange.le_hi, hrange.hi_le, hrange.lo_le_rank, hrange.rank_le_hi⟩

/-- The levels of a dynamic index over pairs of a dataset are not too large for the static one. -/
theorem guided (hε : 0 < ε) {data : Dataset Nat} (hkeys : ∀ k ∈ data.keys, k < maxKey w) (hsize : data.keys.length + 1 < 2 ^ 31)
    {idx : DynamicPgm.Index Nat (Option PGMIndex)} {kvs : List (KeyValue Nat)}
    (hidx : DynamicPgm.HoldsPairs (pgm method w ε recursiveError) idx kvs)
    (hle : (kvs : Multiset (KeyValue Nat)) ≤ addValues data.keys) : DynamicPgm.Guided (pgm method w ε recursiveError) idx := by
  intro i _ hnil
  have hwf := hidx.1.toWellFormed
  obtain ⟨y, hy⟩ := List.exists_mem_of_ne_nil _ hnil
  have hlevel : (idx.getLevel i).Sublist idx.items := by
    rw [DynamicPgm.Index.items, List.flatMap_def]
    exact List.sublist_flatten_of_mem (List.mem_map_of_mem (DynamicPgm.level_of_mem hwf hy))
  have hpairs : (((idx.getLevel i).map DynamicPgm.Item.pair : List (KeyValue Nat)) : Multiset (KeyValue Nat)) ≤ addValues data.keys :=
    (Multiset.coe_le.mpr ((hlevel.map _).subperm.trans hidx.2.subperm)).trans hle
  refine guides method recursiveError (hwf.keys_sorted i) (fun k hk => ?_) (by simpa using hnil) hε ?_
  · obtain ⟨x, hx, rfl⟩ := List.mem_map.mp hk
    have hmem : x.pair ∈ addValues data.keys := Multiset.mem_of_le hpairs (Multiset.mem_coe.mpr (List.mem_map_of_mem hx))
    have hkey : x.key ∈ keys (addValues data.keys) := mem_keys_of_mem hmem
    exact hkeys _ (keys_addValues data.keys ▸ hkey)
  · have hcard := Multiset.card_le_card hpairs
    simp only [Multiset.coe_card, List.length_map, addValues, List.length_mapIdx] at hcard
    rw [List.length_map]
    omega

end StaticPgm

namespace Contest

open Oracle

variable [Double D] [Inhabited K] {G : Type} {keyType : KeyType K D} {p : Params D} {data : Dataset K} {out : Output K}
  {tape tape' : List (Draw K D)} {ratio : D}

/-- An insert and three lookups, one of them for the inserted key and one for a missing key. -/
def fourOperations : Output ℕ where
  bulkload := some [⟨1, 0⟩, ⟨2, 1⟩, ⟨7, 3⟩]
  ops := [[⟨.insert, 5, 0, 2⟩, ⟨.lookup, 4, 0, notFound⟩, ⟨.lookup, 5, 0, 0⟩, ⟨.lookup, 1, 0, 0⟩]]

def fourParams : Params ℚ where
  opCnt := 4
  rangeQueryRatio := 0
  negativeLookupRatio := 1 / 2
  insertRatio := 1 / 4
  pat := .equality
  hotspotRatio := 1 / 10
  threadNum := 1
  mix := false
  blockNum := 1
  bulkloadCnt := none

theorem generate_fourOperations : generate linearKeys fourParams ⟨[1, 2, 5, 7], by decide⟩
    [.shuffle [2, 0, 1, 3], .sort [⟨1, 0⟩, ⟨2, 1⟩, ⟨7, 3⟩], .scaleFactor 0, .scaleFactor (1 / 2), .scaleFactor 1,
      .randUint32 3, .scaleFactor 1, .randUint32 0] = some (fourOperations, []) := by
  decide +kernel

theorem oneThread_fourParams : OneThread fourParams (1 / 4) where
  thread := rfl
  blocks := le_rfl
  accepted h := absurd h (by decide)
  kinds _ := by decide +kernel
  size := by decide

/-- Lookups only. -/
def readParams (opCnt : Nat) : Params ℚ where
  opCnt := opCnt
  rangeQueryRatio := 0
  negativeLookupRatio := 0
  insertRatio := 0
  pat := .equality
  hotspotRatio := 1 / 10
  threadNum := 1
  mix := false
  blockNum := 1
  bulkloadCnt := none

/-- The keys 0, …, n. -/
def counted (n : Nat) (h : n < 2 ^ 32 - 1) : Dataset ℕ := ⟨List.range (n + 1), by rw [List.length_range]; omega⟩

/-- A workload of one lookup, for the first key. -/
theorem generate_first_lookup (n : Nat) (h : n < 2 ^ 32 - 1) : generate linearKeys (readParams 1) (counted n h)
    [.randUint32 0] = some (⟨none, [[⟨.lookup, 0, 0, 0⟩]]⟩, []) := by
  obtain ⟨data, hdata⟩ : ∃ data, data = addValues (counted n h).keys := ⟨_, rfl⟩
  have hlen : data.length = n + 1 := by rw [hdata, addValues, List.length_mapIdx, counted, List.length_range]
  have hfirst : data[0]? = some ⟨0, 0⟩ := by
    rw [hdata, addValues, List.getElem?_mapIdx, counted, List.getElem?_range (Nat.succ_pos n)]
    rfl
  have hins : hasInserts (readParams 1) = false := by decide +kernel
  have hcnt : insertCnt (readParams 1) = 0 := by decide +kernel
  have hsize : sizeSub (n + 1) 1 = n := by
    rw [sizeSub_eq (by omega) (by omega), Nat.add_sub_cancel]
  have hdraw : randUint32 (K := ℕ) (D := ℚ) n [.randUint32 0] = some (0, []) := by
    have hbits : n % 2 ^ 32 ≠ 2 ^ 32 - 1 := by omega
    rw [randUint32, next]
    dsimp only
    rw [if_pos ⟨hbits, Nat.zero_le _⟩]
    rfl
  obtain ⟨last, hlast⟩ : ∃ last, data.getLast? = some last := by
    rw [← Option.isSome_iff_exists, List.getLast?_isSome]
    exact List.ne_nil_of_length_eq_add_one hlen
  have hlookup : generateLookup linearKeys (0 : ℚ) data data ⟨.lookup, 0, 0, 0⟩ [.randUint32 0] =
      some (⟨.lookup, 0, 0, 0⟩, []) := by
    simp only [generateLookup, List.head?_eq_getElem?, hfirst, hlast, bind_eq_some, ofOption_eq_some]
    refine ⟨_, _, ⟨rfl, rfl⟩, _, _, ⟨rfl, rfl⟩, false, _, rfl, ?_⟩
    simp only [Bool.false_eq_true, if_false, bind_eq_some, drawKey, hlen, hsize, ofOption_eq_some]
    exact ⟨0, [], ⟨0, [], hdraw, ⟨0, 0⟩, [], ⟨hfirst, rfl⟩, rfl⟩, rfl⟩
  have hlookups : generateEqualityLookups linearKeys (0 : ℚ) false .empty data [⟨.lookup, 0, 0, 0⟩] [.randUint32 0] =
      some ([⟨.lookup, 0, 0, 0⟩], []) := by
    simp only [generateEqualityLookups, shadow, bind_eq_some]
    exact ⟨_, _, hlookup, [], _, rfl, rfl⟩
  simp only [generate, bind_eq_some, require_eq_some, ofOption_eq_some, pure_eq_some, hcnt, ← hdata]
  refine ⟨⟨⟩, _, ⟨List.pairwise_le_range, rfl⟩, ⟨⟩, _, ⟨by simp [readParams], rfl⟩, ⟨⟩, _, ⟨Nat.zero_le _, rfl⟩, [0],
    [.randUint32 0], ?_, ([default], data), [.randUint32 0], ?_, [⟨.lookup, 0, 0, 0⟩], _, ⟨?_, rfl⟩, [⟨.lookup, 0, 0, 0⟩], _, ⟨?_, rfl⟩, ⟨⟩, _, ⟨Nat.one_ne_zero, rfl⟩,
    [[⟨.lookup, 0, 0, 0⟩]], _, rfl, [[⟨.lookup, 0, 0, 0⟩]], _, ?_, ?_, rfl⟩
  · decide +kernel
  · rw [generateBulkLoads, hins]
    rfl
  · change label [0] .lookup 0 ((0 + (queryCnts (readParams 1)).2) % 2 ^ 64) [default] = _
    decide +kernel
  · decide +kernel
  · simp only [generateThreads, hins, bind_eq_some]
    exact ⟨_, _, hlookups, [], _, rfl, rfl⟩
  · rw [hins]
    rfl

theorem oneThread_readParams (opCnt : Nat) (h : opCnt ∈ [1, 2]) : OneThread (readParams opCnt) 0 where
  thread := rfl
  blocks := le_rfl
  accepted h := absurd h (Nat.lt_irrefl 1)
  kinds _ := by
    revert opCnt
    decide +kernel
  size := by
    revert opCnt
    decide

theorem unique_passes (search : Search K) {ops : DynamicPgm.Pgm K G} (memory : DynamicPgm.Memory K)
    (hguided : ∀ {idx} {kvs : List (KeyValue K)}, DynamicPgm.HoldsPairs ops idx kvs →
      (kvs : Multiset (KeyValue K)) ≤ addValues data.keys → DynamicPgm.Guided ops idx)
    (hp : OneThread p ratio) (h : generate keyType p data tape = some (out, tape')) (hkeys : data.keys.Nodup)
    (hlen : 2 ^ 14 < (out.initial data.keys).length) :
    Returns (benchmarkRun (DynamicPgm.index search memory ops) data.keys p.blockNum (benchmarkFlag p.mix ratio) out)
      fun (idx, passed) => passed = true ∧
        (idx.items.map DynamicPgm.Item.pair).Perm (out.initial data.keys ++ out.ops.flatMap inserts) := by
  have hnodup := generate_keys_nodup hkeys h
  rw [keys_append] at hnodup
  have hle := generate_le h
  have hprefix : ∀ {xs : List (KeyValue K)}, xs <+: out.initial data.keys ++ out.ops.flatMap inserts →
      (xs : Multiset (KeyValue K)) ≤ addValues data.keys := fun hxs =>
    (Multiset.coe_le.mpr hxs.sublist.subperm).trans hle
  have hadmits : ∀ os, out.ops = [os] → (DynamicPgm.terms fun kvs : List (KeyValue K) =>
      (kvs : Multiset (KeyValue K)) ≤ addValues data.keys).AdmitsAll (out.initial data.keys) os := by
    intro os hos pre op post hsplit hop
    refine ⟨unique_admitsAll h hkeys False 0 os hos pre op post hsplit hop, hprefix ⟨inserts post, ?_⟩⟩
    rw [hos, List.flatMap_singleton, hsplit, inserts_append, inserts_cons, inserts_singleton_of_insert hop, replay_eq]
    simp
  have hrun := (DynamicPgm.serves search memory _ hguided).benchmarkRun_spec h hp
    ⟨⟨hlen, hnodup.of_append_left⟩, hprefix (List.prefix_append _ _)⟩ hadmits
  apply (returnsUnless_false.mp hrun).mono
  rintro ⟨idx, passed⟩ ⟨hpassed, ⟨-, hperm⟩, -⟩
  exact ⟨hpassed, hperm⟩

theorem length_counted (n : Nat) (h : n < 2 ^ 32 - 1) (ops : List (List (Operation ℕ))) :
    (Output.initial ⟨none, ops⟩ (counted n h).keys).length = n + 1 := by
  rw [Output.initial, Option.getD_none, addValues, List.length_mapIdx, counted, List.length_range]

/-- Without inserts and a chosen bulk load the index is built on the whole dataset. -/
theorem generate_whole (h : generate keyType p data tape = some (out, tape')) (hreads : hasInserts p = false)
    (hwhole : p.bulkloadCnt = none) : out.initial data.keys = addValues data.keys ∧ out.ops.flatMap inserts = [] ∧
      data.keys.Pairwise (· ≤ ·) := by
  have hinitial : out.initial data.keys = addValues data.keys := by
    rw [Output.initial, generate_bulkload h, if_neg (by simp [hreads, hwhole]), Option.getD_none]
  have hsorted := initial_sorted h
  refine ⟨hinitial, ?_, ?_⟩
  · have hle := generate_le h
    rw [hinitial, add_le_iff_nonpos_right, Multiset.le_zero, Multiset.coe_eq_zero] at hle
    exact hle
  · rw [hinitial] at hsorted
    have hpair : (keys (addValues data.keys)).Pairwise (· ≤ ·) := List.pairwise_map.mpr hsorted
    rwa [keys_addValues] at hpair

theorem reads_pass (search : Search K) {ops : DynamicPgm.Pgm K G} (hguides : ops.Guides data.keys)
    (hp : OneThread p ratio) (h : generate keyType p data tape = some (out, tape')) (hreads : hasInserts p = false)
    (hwhole : p.bulkloadCnt = none) :
    Returns (benchmarkRun (Competitors.PGM.index search ops) data.keys p.blockNum (benchmarkFlag p.mix ratio) out)
      fun (_, passed) => passed = true := by
  obtain ⟨hinitial, hnone, -⟩ := generate_whole h hreads hwhole
  have hloads : (Competitors.PGM.terms ops).loads (out.initial data.keys) := by
    rw [hinitial]
    exact ⟨⟨data.keys, rfl⟩, (keys_addValues data.keys).symm ▸ hguides⟩
  have hadmits : ∀ os, out.ops = [os] → (Competitors.PGM.terms ops).AdmitsAll (out.initial data.keys) os := by
    intro os hos pre op post hsplit hop
    rw [hos, List.flatMap_singleton, hsplit, inserts_append, inserts_cons, inserts_singleton_of_insert hop] at hnone
    simp at hnone
  have hrun := (Competitors.PGM.serves search).benchmarkRun_spec h hp hloads hadmits
  exact (returnsUnless_false.mp hrun).mono fun _ hpassed => hpassed.1

theorem generate_reads : generate linearKeys (readParams 2) ⟨[1, 2, 5, 7], by decide⟩ [.randUint32 2, .randUint32 0] =
    some (⟨none, [[⟨.lookup, 5, 0, 0⟩, ⟨.lookup, 1, 0, 0⟩]]⟩, []) := by
  decide +kernel

end Contest

end LearnedIndex
