import LearnedIndex.BTree.Access
import LearnedIndex.BTree.Verify
import LearnedIndex.Competitors

/-! The wrapper `STXBTree`: its operations on a `stx::btree_multimap`, and what they answer after
any number of insertions. -/

namespace LearnedIndex.BTree

open Util SortedList Transition

variable {K : Type} [LinearOrder K] (t : Traits) (search : Search K)

namespace STXBTree

def build (data : List (KeyValue K)) : Option (Btree K) := Btree.bulkLoad t .empty data

def equalityLookup (tree : Btree K) (lookupKey : K) : Option UInt64 := do
  let it ← tree.find search lookupKey
  if it = (← tree.memory.end) then return notFound else return (← it.deref tree.memory).value

def rangeQuery (tree : Btree K) (lowerKey upperKey : K) : Option UInt64 := do
  let it ← tree.lowerBound search lowerKey
  let (_, result) ← Loop.whileDo
    (fun (it, _) => do
      if it = (← tree.memory.end) then return false else return (← it.deref tree.memory).key ≤ upperKey)
    (fun (it, result) => do return (← it.next tree.memory, result + (← it.deref tree.memory).value)) (it, 0)
  return result

def insert (tree : Btree K) (data : KeyValue K) : Option (Btree K) :=
  (tree.insertStart t search data).map Prod.fst

/-- `Build`, and then these insertions. -/
def session (data kvs : List (KeyValue K)) : Option (Btree K) := do run (insert t search) (← build t data) kvs

end STXBTree

variable {t search} {tree : Btree K} {xs : List (KeyValue K)} {key lo hi : K}

/-- The lower bound of a key that is there is the first pair with it. -/
theorem find?_eq_head (h : Sorted KeyValue.key xs) (hkey : key ∈ keys xs) :
    ∃ x rest, lowerBound KeyValue.key key xs = x :: rest ∧ xs.find? (fun x => x.key = key) = some x := by
  obtain ⟨x, hx, hxkey⟩ := (head_lowerBound_iff h).mpr (mem_keys.mp hkey)
  obtain ⟨rest, hrest⟩ := List.head?_eq_some_iff.mp hx
  refine ⟨x, rest, hrest, ?_⟩
  have hsplit : xs = xs.takeWhile (fun x => decide (x.key < key)) ++ x :: rest := by
    rw [← hrest, lowerBound, List.takeWhile_append_dropWhile]
  have hnone : (xs.takeWhile fun x => decide (x.key < key)).find? (fun x => decide (x.key = key)) = none := by
    rw [List.find?_eq_none]
    intro y hy
    have hlt : y.key < key := by simpa using List.mem_takeWhile_imp hy
    simpa using hlt.ne
  rw [hsplit, List.find?_append, hnone, Option.none_or, List.find?_cons_of_pos (by simpa using hxkey)]

theorem rangeSum_eq (h : Sorted KeyValue.key xs) :
    rangeSum xs lo hi =
      (((lowerBound KeyValue.key lo xs).takeWhile fun x => decide (x.key ≤ hi)).map KeyValue.value).sum := by
  rw [interval_eq_filter h, rangeSum, Multiset.filter_coe, Multiset.map_coe, Multiset.sum_coe]

namespace STXBTree

/-- The first of the values of the key. -/
theorem equalityLookup_eq (h : tree.Stores t xs) (key : K) :
    equalityLookup search tree key = some (((xs.find? fun x => x.key = key).map KeyValue.value).getD notFound) := by
  obtain ⟨ls, h, rfl⟩ := h
  obtain ⟨it, hfind, hat⟩ := h.find_spec search key
  obtain ⟨last, hend, -⟩ := Iterator.At.of_end h.chains
  have hit := hat.end_iff h.chains h.nonempty
  simp only [equalityLookup, hfind, hend, Option.bind_eq_bind, Option.bind_some]
  rw [hend] at hit
  by_cases hkey : key ∈ keys (items ls)
  · obtain ⟨x, rest, hrest, hx⟩ := find?_eq_head h.sorted hkey
    rw [if_pos hkey, hrest] at hat
    have hne : it ≠ last := by
      rintro rfl
      have hnil := hit.mp rfl
      rw [if_pos hkey, hrest] at hnil
      cases hnil
    rw [if_neg hne, hat.deref h.chains h.nonempty, hx]
    rfl
  · rw [if_neg hkey] at hit
    have hnone : (items ls).find? (fun x => decide (x.key = key)) = none := by
      rw [List.find?_eq_none]
      intro x hx
      have hne : x.key ≠ key := fun heq => hkey (heq ▸ mem_keys_of_mem hx)
      simpa using hne
    rw [if_pos (Option.some.inj (hit.mpr rfl)).symm, hnone]
    rfl

theorem rangeQuery_eq (h : tree.Stores t xs) (lo hi : K) : rangeQuery search tree lo hi = some (rangeSum xs lo hi) := by
  obtain ⟨ls, h, rfl⟩ := h
  obtain ⟨it, hlower, hat⟩ := h.lowerBound_spec search lo
  obtain ⟨last, hend, -⟩ := Iterator.At.of_end h.chains
  rw [rangeSum_eq h.sorted]
  generalize SortedList.lowerBound KeyValue.key lo (items ls) = start at hat
  generalize htotal : ((start.takeWhile fun x => decide (x.key ≤ hi)).map KeyValue.value).sum = total
  have hloop : Returns (Loop.whileDo
      (fun (it, _) => do if it = last then return false else return (← it.deref tree.memory).key ≤ hi)
      (fun (it, result) => do return (← it.next tree.memory, result + (← it.deref tree.memory).value)) (it, 0))
      fun s => s.2 = total := by
    apply Returns.whileDo_of (I := fun rest s => Iterator.At ls s.1 rest ∧
      s.2 + ((rest.takeWhile fun x => decide (x.key ≤ hi)).map KeyValue.value).sum = total) List.length
    · rintro rest ⟨it, result⟩ ⟨hat, hsum⟩
      have hit := hat.end_iff h.chains h.nonempty
      rw [hend] at hit
      by_cases hlast : it = last
      · obtain rfl := hit.mp (congrArg some hlast.symm)
        simpa [hlast] using hsum
      cases rest with
      | nil => exact absurd (Option.some.inj (hit.mpr rfl)).symm hlast
      | cons x rest =>
        have hderef := hat.deref h.chains h.nonempty
        obtain ⟨it', hnext, hat'⟩ := hat.next h.chains h.nonempty
        simp only [if_neg hlast, hderef, hnext, Option.bind_eq_bind, Option.bind_some, Option.pure_def, Returns.some_iff,
          decide_eq_true_eq]
        split_ifs with hle
        · rw [List.takeWhile_cons_of_pos (by simpa using hle), List.map_cons, List.sum_cons, ← add_assoc] at hsum
          exact ⟨rest, ⟨hat', hsum⟩, Nat.lt_succ_self _⟩
        · rw [List.takeWhile_cons_of_neg (by simpa using hle)] at hsum
          simpa using hsum
    · exact ⟨hat, by rw [zero_add]; exact htotal⟩
  obtain ⟨⟨it', result⟩, hrun, rfl⟩ := hloop
  simp only [rangeQuery, hlower, hend, Option.bind_eq_bind, Option.bind_some] at hrun ⊢
  rw [hrun]
  rfl

theorem insert_spec (h : tree.Stores t xs) (kv : KeyValue K) :
    Returns (insert t search tree kv) fun tree' => tree'.Stores t (insertLower KeyValue.key kv xs) := by
  obtain ⟨⟨tree', it⟩, hinsert, htree', -⟩ := Btree.insertStart_spec h
  exact ⟨tree', by rw [insert, hinsert]; rfl, htree'⟩

/-- Any number of insertions. -/
theorem run_stores (h : tree.Stores t xs) (kvs : List (KeyValue K)) :
    Returns (run (insert t search) tree kvs) fun tree' =>
      tree'.Stores t (kvs.foldl (fun xs kv => insertLower KeyValue.key kv xs) xs) := by
  refine run_total (P := fun pre tree' =>
    Btree.Stores t tree' (pre.foldl (fun xs kv => insertLower KeyValue.key kv xs) xs)) h ?_
  intro pre tree' kv _ _ hstores
  rw [List.foldl_concat]
  exact insert_spec hstores kv

/-- What is in a tree that was built from these data, after these insertions. -/
def contents (data kvs : List (KeyValue K)) : List (KeyValue K) :=
  kvs.foldl (fun xs kv => insertLower KeyValue.key kv xs) data

theorem contents_perm (data kvs : List (KeyValue K)) : (contents data kvs).Perm (data ++ kvs) := by
  induction kvs generalizing data with
  | nil => rw [List.append_nil]; exact .refl _
  | cons kv kvs ih =>
    exact (ih _).trans (((insertLower_perm kv).append_right kvs).trans List.perm_middle.symm)

theorem find?_insertLower (kv : KeyValue K) (xs : List (KeyValue K)) (key : K) :
    (insertLower KeyValue.key kv xs).find? (fun x => x.key = key) = (kv :: xs).find? fun x => x.key = key := by
  have hsplit := List.takeWhile_append_dropWhile (p := fun x : KeyValue K => decide (x.key < kv.key)) (l := xs)
  rw [insertLower, lowerBound]
  conv_rhs => rw [← hsplit]
  by_cases hkey : kv.key = key
  · have hnone : (xs.takeWhile fun x => decide (x.key < kv.key)).find? (fun x => decide (x.key = key)) = none := by
      rw [List.find?_eq_none]
      intro y hy
      have hlt : y.key < kv.key := by simpa using List.mem_takeWhile_imp hy
      simpa [← hkey] using hlt.ne
    rw [List.find?_append, hnone, Option.none_or, List.find?_cons_of_pos (by simpa using hkey),
      List.find?_cons_of_pos (by simpa using hkey)]
  · rw [List.find?_append, List.find?_cons_of_neg (by simpa using hkey), List.find?_cons_of_neg (by simpa using hkey),
      List.find?_append]

/-- The pairs inserted last come first. -/
theorem find?_contents (data kvs : List (KeyValue K)) (key : K) :
    (contents data kvs).find? (fun x => x.key = key) = (kvs.reverse ++ data).find? fun x => x.key = key := by
  induction kvs generalizing data with
  | nil => rfl
  | cons kv kvs ih =>
    rw [contents, List.foldl_cons, ← contents, ih, List.find?_append, find?_insertLower, List.reverse_cons,
      List.append_assoc, List.find?_append]
    rfl

theorem session_stores {data : List (KeyValue K)} (hdata : Sorted KeyValue.key data) (kvs : List (KeyValue K)) :
    Returns (session t search data kvs) fun tree => tree.Stores t (contents data kvs) :=
  (Btree.bulkLoad_stores hdata).bind fun _ hstores => run_stores hstores kvs

section Sessions

variable (t : Traits) (search : Search K) (data kvs : List (KeyValue K))

/-- Two keys twice each, and more pairs than a leaf of eight has slots for. -/
def tenPairs : List (KeyValue ℕ) :=
  [⟨1, 0⟩, ⟨2, 1⟩, ⟨2, 2⟩, ⟨3, 3⟩, ⟨5, 4⟩, ⟨5, 5⟩, ⟨6, 6⟩, ⟨7, 7⟩, ⟨8, 8⟩, ⟨9, 9⟩]

/-- A lookup finds the value inserted last, and the first of the loaded values for a key that was not
inserted. -/
theorem equalityLookup_newest (hdata : Sorted KeyValue.key data) :
    Returns (session t search data kvs) fun tree => ∀ key, equalityLookup search tree key =
      some ((((kvs.reverse ++ data).find? fun x => x.key = key).map KeyValue.value).getD notFound) := by
  apply (session_stores hdata kvs).mono
  intro tree hstores key
  rw [equalityLookup_eq hstores, find?_contents]

theorem equalityLookup_newest_inserted : ∃ tree,
    session (.ofNodeSize 8 64) BranchingBinarySearch.search tenPairs [⟨2, 20⟩, ⟨2, 21⟩] = some tree ∧
      equalityLookup BranchingBinarySearch.search tree 2 = some 21 ∧
      equalityLookup BranchingBinarySearch.search tree 5 = some 4 ∧
      equalityLookup BranchingBinarySearch.search tree 4 = some notFound := by
  obtain ⟨tree, htree, hlookup⟩ := equalityLookup_newest (.ofNodeSize 8 64) BranchingBinarySearch.search
    tenPairs [⟨2, 20⟩, ⟨2, 21⟩] (by decide)
  exact ⟨tree, htree, hlookup 2, hlookup 5, hlookup 4⟩

/-- A range query sums over all the pairs in its range, those with one key as well. -/
theorem rangeQuery_sums (hdata : Sorted KeyValue.key data) :
    Returns (session t search data kvs) fun tree => ∀ lo hi,
      rangeQuery search tree lo hi = some (rangeSum (data ++ kvs : List (KeyValue K)) lo hi) := by
  apply (session_stores hdata kvs).mono
  intro tree hstores lo hi
  rw [rangeQuery_eq hstores, Multiset.coe_eq_coe.mpr (contents_perm data kvs)]

theorem rangeQuery_sums_inserted : ∃ tree,
    session (.ofNodeSize 8 64) BranchingBinarySearch.search tenPairs [⟨4, 30⟩, ⟨2, 20⟩] = some tree ∧
      rangeQuery BranchingBinarySearch.search tree 2 4 = some 56 := by
  obtain ⟨tree, htree, hsum⟩ := rangeQuery_sums (.ofNodeSize 8 64) BranchingBinarySearch.search
    tenPairs [⟨4, 30⟩, ⟨2, 20⟩] (by decide)
  exact ⟨tree, htree, hsum 2 4⟩

/-- The height of the tree is logarithmic in the number of its pairs. -/
theorem session_height (hdata : Sorted KeyValue.key data) :
    Returns (session t search data kvs) fun tree =>
      (∀ level, tree.height = level + 1 →
        2 * ((t.mininnerslots + 1) ^ level * t.minleafslots) ≤ data.length + kvs.length) ∧
      data.length + kvs.length ≤ (t.innerslotmax + 1) ^ tree.height * t.leafslotmax := by
  apply (session_stores hdata kvs).mono
  intro tree hstores
  have hlen := (contents_perm data kvs).length_eq
  rw [List.length_append] at hlen
  rw [← hlen]
  exact hstores.height_bounds

theorem session_height_twenty : ∃ tree,
    session (.ofNodeSize 8 64) BranchingBinarySearch.search tenPairs tenPairs = some tree ∧ tree.height = 1 := by
  obtain ⟨tree, htree, hlower, hupper⟩ :=
    session_height (.ofNodeSize 8 64) BranchingBinarySearch.search tenPairs tenPairs (by decide)
  refine ⟨tree, htree, ?_⟩
  cases hheight : tree.height with
  | zero =>
    rw [hheight] at hupper
    exact absurd hupper (by decide)
  | succ level =>
    have hmany := hlower level hheight
    cases level with
    | zero => rfl
    | succ level =>
      have hpos : 0 < 5 ^ level := Nat.pow_pos (by decide)
      change 2 * (5 ^ (level + 1) * 4) ≤ 20 at hmany
      omega

end Sessions

end STXBTree

end LearnedIndex.BTree
