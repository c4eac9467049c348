import LearnedIndex.BTree.Insert
import LearnedIndex.Transition

/-! The tree as a whole: what holds of it from one operation to the next, and what `verify` finds. -/

namespace LearnedIndex.BTree

open Util SortedList Transition

variable {K : Type} [LinearOrder K] {t : Traits} {search : Search K} {kv : KeyValue K}

namespace Btree

/-- The leaves of the tree, in order. -/
structure Shaped (t : Traits) (tree : Btree K) (ls : List (Leaf K)) : Prop where
  chains : tree.memory.Chains ls
  sorted : Sorted KeyValue.key (items ls)
  root : match tree.root with
    | none => ls = []
    | some root => Holds t true root.1 root.2 ls
  itemcount : tree.memory.stats.itemcount = (items ls).length
  leaves : tree.memory.stats.leaves = ls.length
  innernodes : tree.memory.stats.innernodes = match tree.root with
    | none => 0
    | some root => innernodes root.1 root.2

/-- The pairs of the tree, in order. -/
def Stores (t : Traits) (tree : Btree K) (xs : List (KeyValue K)) : Prop := ∃ ls, tree.Shaped t ls ∧ items ls = xs

end Btree

namespace Btree

theorem Shaped.empty : (empty : Btree K).Shaped t [] := ⟨.nil, .nil, rfl, rfl, rfl, rfl⟩

end Btree

/-- The tree after an insertion below its root. -/
theorem shaped_of_grows {level : Nat} {node : Node K level} {ls ls' : List (Leaf K)} {m m' : Memory K}
    {r : Inserted K (Node K level)} (h : Grows t true kv [] [] level node ls ls' m m' r)
    (hsorted : Sorted KeyValue.key (items ls)) (hitems : m.stats.itemcount = (items ls).length)
    (hleaves : m.stats.leaves = ls.length) (hinner : m.stats.innernodes = innernodes level node) :
    (r.tree m').Shaped t ls' ∧ r.it.deref (r.tree m').memory = some kv := by
  have hlen : (items ls').length = (items ls).length + 1 := by
    rw [h.items, (insertLower_perm kv).length_eq, List.length_cons]
  have hsorted' : Sorted KeyValue.key (items ls') := h.items ▸ hsorted.insertLower kv
  have hchains : m'.Chains ls' := by simpa using h.chains
  have hitems' := h.itemcount
  have hleaves' := h.leaves
  have hinner' := h.innernodes
  have holds := h.holds
  have hit := h.it
  obtain ⟨node', split, it⟩ := r
  cases split with
  | none =>
    refine ⟨⟨hchains.counted _, hsorted', holds, ?_, ?_, ?_⟩, hit⟩
    · simp only [Inserted.tree]
      omega
    · simp only [Inserted.tree]
      omega
    · simp only [Inserted.tree, Inserted.innernodes] at hinner' ⊢
      omega
  | some sibling =>
    obtain ⟨newkey, newchild⟩ := sibling
    obtain ⟨left, right, rfl, hmax, hleft, hright⟩ := holds
    refine ⟨⟨hchains.allocateInner.counted _, hsorted', ?_, ?_, ?_, ?_⟩, hit⟩
    · exact ⟨[left, right], by simp, .cons hmax (.last right), .cons hleft (.cons hright .nil), le_rfl,
        by have := t.innerslotmax_ge; simp; omega⟩
    · simp only [Inserted.tree, Memory.allocateInner]
      omega
    · simp only [Inserted.tree, Memory.allocateInner]
      omega
    · simp only [Inserted.tree, Inserted.innernodes, Memory.allocateInner, innernodes, List.map_cons, List.map_nil,
        List.sum_cons, List.sum_nil] at hinner' ⊢
      omega

namespace Btree

variable {tree : Btree K} {xs : List (KeyValue K)}

/-- The pair comes in front of those with its key. -/
theorem insertStart_spec (h : tree.Stores t xs) :
    Returns (tree.insertStart t search kv) fun (tree', it) =>
      tree'.Stores t (insertLower KeyValue.key kv xs) ∧ it.deref tree'.memory = some kv := by
  obtain ⟨ls, h, rfl⟩ := h
  obtain ⟨root, m⟩ := tree
  have hroot := h.root
  unfold insertStart
  cases root with
  | none =>
    obtain rfl : ls = [] := hroot
    have hfirst : m.allocateFirst.Chains ([] ++ (m.allocateLeaf.1, []) :: []) := .allocateFirst m
    have hleaves : m.allocateFirst.stats.leaves = 1 := congrArg (· + 1) h.leaves
    apply (insertLeaf_spec true hfirst .nil (.inl rfl) (Nat.zero_le _)).bind
    rintro ⟨r, m'⟩ ⟨ls', hgrows⟩
    obtain ⟨hshaped, hit⟩ := shaped_of_grows hgrows .nil h.itemcount hleaves h.innernodes
    exact Returns.some_iff.mpr ⟨⟨ls', hshaped, hgrows.items⟩, hit⟩
  | some root =>
    have hchains : m.Chains ([] ++ ls ++ []) := by simpa using h.chains
    apply (insertDescend_spec hroot hchains h.sorted).bind
    rintro ⟨r, m'⟩ ⟨ls', hgrows⟩
    obtain ⟨hshaped, hit⟩ := shaped_of_grows hgrows h.sorted h.itemcount h.leaves h.innernodes
    exact Returns.some_iff.mpr ⟨⟨ls', hshaped, hgrows.items⟩, hit⟩

end Btree

section Height

variable {root : Bool} {level : Nat} {node : Node K level} {ls : List (Leaf K)}

omit [LinearOrder K] in
theorem length_items_flatten_le {lss : List (List (Leaf K))} {n : Nat} (h : ∀ ls ∈ lss, (items ls).length ≤ n) :
    (items lss.flatten).length ≤ lss.length * n := by
  induction lss with
  | nil => exact Nat.zero_le _
  | cons ls lss ih =>
    have hfirst := h ls List.mem_cons_self
    have hrest := ih fun ls hls => h ls (List.mem_cons_of_mem _ hls)
    rw [List.flatten_cons, items_append, List.length_append, List.length_cons, Nat.succ_mul]
    omega

omit [LinearOrder K] in
theorem le_length_items_flatten {lss : List (List (Leaf K))} {n : Nat} (h : ∀ ls ∈ lss, n ≤ (items ls).length) :
    lss.length * n ≤ (items lss.flatten).length := by
  induction lss with
  | nil => exact Nat.le_of_eq (Nat.zero_mul n)
  | cons ls lss ih =>
    have hfirst := h ls List.mem_cons_self
    have hrest := ih fun ls hls => h ls (List.mem_cons_of_mem _ hls)
    rw [List.flatten_cons, items_append, List.length_append, List.length_cons, Nat.succ_mul]
    omega

omit [LinearOrder K] in
theorem Holds.length_le (h : Holds t root level node ls) :
    (items ls).length ≤ (t.innerslotmax + 1) ^ level * t.leafslotmax := by
  induction level generalizing root ls with
  | zero =>
    obtain ⟨xs, rfl, -, hmax⟩ := h
    change (xs ++ []).length ≤ _
    rwa [List.append_nil, Nat.pow_zero, Nat.one_mul]
  | succ level ih =>
    obtain ⟨lss, rfl, hdivides, hchildren, -, hmax⟩ := h
    have hall : ∀ ls ∈ lss, (items ls).length ≤ (t.innerslotmax + 1) ^ level * t.leafslotmax := by
      intro ls hls
      obtain ⟨c, hc⟩ := exists_child hchildren hls
      exact ih hc
    calc (items lss.flatten).length
        ≤ lss.length * ((t.innerslotmax + 1) ^ level * t.leafslotmax) := length_items_flatten_le hall
      _ ≤ (t.innerslotmax + 1) * ((t.innerslotmax + 1) ^ level * t.leafslotmax) := by
        apply Nat.mul_le_mul_right
        rw [hdivides.length]
        exact Nat.succ_le_succ hmax
      _ = (t.innerslotmax + 1) ^ (level + 1) * t.leafslotmax := by rw [Nat.pow_succ', Nat.mul_assoc]

omit [LinearOrder K] in
theorem Holds.le_length (h : Holds t false level node ls) :
    (t.mininnerslots + 1) ^ level * t.minleafslots ≤ (items ls).length := by
  induction level generalizing ls with
  | zero =>
    obtain ⟨xs, rfl, hmin, -⟩ := h
    change _ ≤ (xs ++ []).length
    rwa [List.append_nil, Nat.pow_zero, Nat.one_mul]
  | succ level ih =>
    obtain ⟨lss, rfl, hdivides, hchildren, hmin, -⟩ := h
    have hall : ∀ ls ∈ lss, (t.mininnerslots + 1) ^ level * t.minleafslots ≤ (items ls).length := by
      intro ls hls
      obtain ⟨c, hc⟩ := exists_child hchildren hls
      exact ih hc
    calc (t.mininnerslots + 1) ^ (level + 1) * t.minleafslots
        = (t.mininnerslots + 1) * ((t.mininnerslots + 1) ^ level * t.minleafslots) := by
          rw [Nat.pow_succ', Nat.mul_assoc]
      _ ≤ lss.length * ((t.mininnerslots + 1) ^ level * t.minleafslots) := by
        apply Nat.mul_le_mul_right
        rw [hdivides.length]
        exact Nat.succ_le_succ hmin
      _ ≤ (items lss.flatten).length := le_length_items_flatten hall

omit [LinearOrder K] in
/-- The root has two children at least. -/
theorem Holds.le_length_root {inner : InnerNode K (Node K level)} (h : Holds t true (level + 1) inner ls) :
    2 * ((t.mininnerslots + 1) ^ level * t.minleafslots) ≤ (items ls).length := by
  obtain ⟨lss, rfl, hdivides, hchildren, hmin, -⟩ := h
  have hall : ∀ ls ∈ lss, (t.mininnerslots + 1) ^ level * t.minleafslots ≤ (items ls).length := by
    intro ls hls
    obtain ⟨c, hc⟩ := exists_child hchildren hls
    exact hc.le_length
  calc 2 * ((t.mininnerslots + 1) ^ level * t.minleafslots)
      ≤ lss.length * ((t.mininnerslots + 1) ^ level * t.minleafslots) := by
        apply Nat.mul_le_mul_right
        rw [hdivides.length]
        exact Nat.succ_le_succ hmin
    _ ≤ (items lss.flatten).length := le_length_items_flatten hall

/-- The levels of inner nodes. -/
def Btree.height (tree : Btree K) : Nat := tree.root.elim 0 Sigma.fst

/-- A tree is no higher and no lower than its slots allow. -/
theorem Btree.Stores.height_bounds {tree : Btree K} {xs : List (KeyValue K)} (h : tree.Stores t xs) :
    (∀ level, tree.height = level + 1 → 2 * ((t.mininnerslots + 1) ^ level * t.minleafslots) ≤ xs.length) ∧
      xs.length ≤ (t.innerslotmax + 1) ^ tree.height * t.leafslotmax := by
  obtain ⟨ls, h, rfl⟩ := h
  have holds := h.root
  cases hroot : tree.root with
  | none =>
    rw [hroot] at holds
    subst holds
    rw [height, hroot]
    exact ⟨fun level hlevel => (by cases hlevel), Nat.zero_le _⟩
  | some root =>
    rw [hroot] at holds
    obtain ⟨height, node⟩ := root
    rw [Btree.height, hroot]
    refine ⟨?_, holds.length_le⟩
    rintro level rfl
    exact holds.le_length_root

end Height

end LearnedIndex.BTree
