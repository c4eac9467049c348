import LearnedIndex.BTree.Tree

/-! Searches in a tree, and the iterators that they return. -/

namespace LearnedIndex.BTree

open Util SortedList

variable {K : Type}

/-- The iterator stands in front of these pairs. -/
def Iterator.At (ls : List (Leaf K)) (it : Iterator) (rest : List (KeyValue K)) : Prop :=
  (ls = [] ∧ rest = [] ∧ it = ⟨none, 0⟩) ∨
    ∃ before p xs after, ls = before ++ (p, xs) :: after ∧ it.currnode = some p ∧ it.currslot ≤ xs.length ∧
      (after ≠ [] → it.currslot < xs.length) ∧ rest = xs.drop it.currslot ++ items after

section Iterator

variable {m : Memory K} {ls : List (Leaf K)} {it : Iterator} {x : KeyValue K} {rest : List (KeyValue K)}

theorem items_eq_nil_iff (hls : ∀ l ∈ ls, l.2 ≠ []) : items ls = [] ↔ ls = [] := by
  constructor
  · intro h
    cases ls with
    | nil => rfl
    | cons l ls =>
      rw [items_cons, List.append_eq_nil_iff] at h
      exact absurd h.1 (hls l List.mem_cons_self)
  · rintro rfl
    rfl

theorem Memory.Chains.end_eq {before : List (Leaf K)} {p : Pointer} {xs : List (KeyValue K)}
    (h : m.Chains (before ++ [(p, xs)])) : m.end = some ⟨some p, xs.length⟩ := by
  have htail := h.tailleaf
  rw [List.map_append, List.map_singleton, List.getLast?_concat] at htail
  rw [Memory.end, htail]
  dsimp only
  rw [h.get]
  rfl

namespace Iterator.At

theorem lt (hls : ∀ l ∈ ls, l.2 ≠ []) (h : it.At ls (x :: rest)) :
    ∃ before p xs after, ls = before ++ (p, xs) :: after ∧ it.currnode = some p ∧
      xs[it.currslot]? = some x ∧ rest = xs.drop (it.currslot + 1) ++ items after := by
  obtain ⟨-, hnil, -⟩ | ⟨before, p, xs, after, rfl, hnode, hle, hlt, hrest⟩ := h
  · cases hnil
  have hslot : it.currslot < xs.length := by
    by_cases hafter : after = []
    · subst hafter
      rw [items_nil, List.append_nil] at hrest
      have hlen := congrArg List.length hrest
      rw [List.length_cons, List.length_drop] at hlen
      omega
    · exact hlt hafter
  rw [List.drop_eq_getElem_cons hslot, List.cons_append] at hrest
  obtain ⟨rfl, rfl⟩ := List.cons.inj hrest
  exact ⟨before, p, xs, after, rfl, hnode, List.getElem?_eq_getElem hslot, rfl⟩

theorem deref (hchains : m.Chains ls) (hls : ∀ l ∈ ls, l.2 ≠ []) (h : it.At ls (x :: rest)) :
    it.deref m = some x := by
  obtain ⟨before, p, xs, after, rfl, hnode, hx, -⟩ := h.lt hls
  obtain ⟨currnode, currslot⟩ := it
  obtain rfl : currnode = some p := hnode
  rw [hchains.deref]
  exact hx

theorem next (hchains : m.Chains ls) (hls : ∀ l ∈ ls, l.2 ≠ []) (h : it.At ls (x :: rest)) :
    Returns (it.next m) fun it' => it'.At ls rest := by
  obtain ⟨before, p, xs, after, rfl, hnode, hx, rfl⟩ := h.lt hls
  obtain ⟨currnode, currslot⟩ := it
  obtain rfl : currnode = some p := hnode
  have hslot : currslot < xs.length := (List.getElem?_eq_some_iff.mp hx).1
  rw [Iterator.next]
  simp only [Option.bind_eq_bind, Option.bind_some, hchains.get]
  split_ifs with hmore hnext
  · exact Returns.some_iff.mpr (.inr ⟨before, p, xs, after, rfl, rfl, hmore.le, fun _ => hmore, rfl⟩)
  · cases after with
    | nil => cases hnext
    | cons l after =>
      obtain ⟨q, ys⟩ := l
      have hys : ys ≠ [] := hls (q, ys) (by simp)
      have hpos := List.length_pos_iff.mpr hys
      refine Returns.some_iff.mpr (.inr ⟨before ++ [(p, xs)], q, ys, after, by simp, rfl, Nat.zero_le _, fun _ => hpos, ?_⟩)
      rw [List.drop_eq_nil_of_le (not_lt.mp hmore)]
      rfl
  · obtain rfl : after = [] := by simpa using hnext
    refine Returns.some_iff.mpr (.inr ⟨before, p, xs, [], rfl, rfl, le_rfl, fun h => absurd rfl h, ?_⟩)
    rw [List.drop_eq_nil_of_le (not_lt.mp hmore), List.drop_length]

theorem end_iff (hchains : m.Chains ls) (hls : ∀ l ∈ ls, l.2 ≠ []) (h : it.At ls rest) :
    m.end = some it ↔ rest = [] := by
  obtain ⟨rfl, rfl, rfl⟩ | ⟨before, p, xs, after, rfl, hnode, hle, hlt, rfl⟩ := h
  · have htail := hchains.tailleaf
    simp [Memory.end, htail]
  obtain ⟨currnode, currslot⟩ := it
  obtain rfl : currnode = some p := hnode
  rw [List.append_eq_nil_iff, List.drop_eq_nil_iff, items_eq_nil_iff fun l hl => hls l (by simp [hl])]
  obtain rfl | ⟨mid, ⟨q, ys⟩, rfl⟩ := after.eq_nil_or_concat'
  · change currslot ≤ xs.length at hle
    rw [hchains.end_eq]
    simp
    omega
  · have hchains' : m.Chains ((before ++ (p, xs) :: mid) ++ [(q, ys)]) := by simpa using hchains
    have hne : q ≠ p := by
      have hnodup := hchains'.nodup
      rw [List.map_append] at hnodup
      exact ((List.nodup_append.mp hnodup).2.2 p (by simp) q List.mem_cons_self).symm
    rw [hchains'.end_eq]
    simp [hne]

theorem of_end (hchains : m.Chains ls) : Returns m.end fun it => it.At ls [] := by
  obtain rfl | ⟨before, ⟨p, xs⟩, rfl⟩ := ls.eq_nil_or_concat'
  · have htail := hchains.tailleaf
    exact ⟨⟨none, 0⟩, by simp [Memory.end, htail], .inl ⟨rfl, rfl, rfl⟩⟩
  · refine ⟨_, hchains.end_eq, .inr ⟨before, p, xs, [], rfl, rfl, le_rfl, fun h => absurd rfl h, ?_⟩⟩
    simp

end Iterator.At

end Iterator

section Search

variable [LinearOrder K] {t : Traits} (search : Search K)

theorem descend_spec {root : Bool} {level : Nat} {node : Node K level} {ls : List (Leaf K)}
    (h : Holds t root level node ls) (hsorted : Sorted KeyValue.key (items ls)) (key : K) :
    ∃ before p xs after, ls = before ++ (p, xs) :: after ∧ descend search key level node = some p ∧
      (∀ x ∈ items before, x.key < key) ∧ (after ≠ [] → ∃ x ∈ xs, key ≤ x.key) := by
  induction level generalizing root ls with
  | zero =>
    obtain ⟨slots, rfl, -⟩ := h
    exact ⟨[], node, slots, [], rfl, rfl, fun x hx => absurd hx List.not_mem_nil, fun h => absurd rfl h⟩
  | succ level ih =>
    rw [descend]
    obtain ⟨cb, c, ca, lb, l, la, rfl, h, hslot, -⟩ := h.takes hsorted search key
    change InnerNode K (Node K level) at node
    rw [hslot, h.childid, List.getElem?_append_right le_rfl, Nat.sub_self, List.getElem?_cons_zero,
      Option.bind_eq_bind, Option.bind_some]
    obtain ⟨before, p, xs, after, rfl, hp, hbelow, habove⟩ := ih h.child (sorted_child hsorted)
    refine ⟨lb.flatten ++ before, p, xs, after ++ la.flatten, by simp, hp, ?_, fun hne => ?_⟩
    · intro x hx
      rw [items_append] at hx
      obtain hx | hx := List.mem_append.mp hx
      · exact h.below x hx
      · exact hbelow x hx
    · by_cases hafter : after = []
      · subst hafter
        have hla : la ≠ [] := by
          rintro rfl
          exact hne rfl
        obtain ⟨x, hx, hle⟩ := h.above hla
        rw [items_append, items_cons, items_nil, List.append_nil] at hx
        obtain hx | hx := List.mem_append.mp hx
        · exact absurd (hbelow x hx) (not_lt.mpr hle)
        · exact ⟨x, hx, hle⟩
      · exact habove hafter

theorem rank_lt_length {ks : List K} {key : K} (h : ∃ k ∈ ks, key ≤ k) : rank ks key < ks.length := by
  refine lt_of_le_of_ne (rank_le_length ks key) fun heq => ?_
  obtain ⟨k, hk, hle⟩ := h
  have hall : ks.takeWhile (fun k => decide (k < key)) = ks := (List.takeWhile_prefix _).eq_of_length heq
  have hlt := List.takeWhile_eq_self_iff.mp hall k hk
  exact absurd (of_decide_eq_true hlt) (not_lt.mpr hle)

/-- The way down ends at the leaf with the lower bound. -/
theorem lowerBound_items {before after : List (Leaf K)} (p : Pointer) {xs : List (KeyValue K)} {key : K}
    (hbelow : ∀ x ∈ items before, x.key < key) (habove : after ≠ [] → ∃ x ∈ xs, key ≤ x.key) :
    lowerBound KeyValue.key key (items (before ++ (p, xs) :: after)) =
      xs.drop (rank (keys xs) key) ++ items after := by
  have hall : ∀ x ∈ items before, decide (x.key < key) = true := fun x hx => decide_eq_true (hbelow x hx)
  rw [keys, drop_rank_map, lowerBound, lowerBound, items_append, items_cons, List.dropWhile_append_of_pos hall,
    List.dropWhile_append]
  split_ifs with hempty
  · have hxs : xs.dropWhile (fun x => decide (x.key < key)) = [] := List.isEmpty_iff.mp hempty
    obtain rfl : after = [] := by
      by_contra hafter
      obtain ⟨x, hx, hle⟩ := habove hafter
      exact absurd (of_decide_eq_true (List.dropWhile_eq_nil_iff.mp hxs x hx)) (not_lt.mpr hle)
    rw [hxs]
    rfl
  · rfl

namespace Btree

variable {tree : Btree K} {ls : List (Leaf K)}

theorem Shaped.nonempty (h : tree.Shaped t ls) : ∀ l ∈ ls, l.2 ≠ [] := by
  have hroot := h.root
  split at hroot
  · subst hroot
    intro l hl
    cases hl
  · exact hroot.ne_nil.2

/-- The leaf and the slot where a search ends. -/
theorem Shaped.search_spec (h : tree.Shaped t ls) (key : K) {root : Σ level, Node K level} (hroot : tree.root = some root) :
    ∃ before p xs after, ls = before ++ (p, xs) :: after ∧ descend search key root.1 root.2 = some p ∧
      findLower search (keys xs) key = rank (keys xs) key ∧
      Iterator.At ls ⟨some p, rank (keys xs) key⟩ (SortedList.lowerBound KeyValue.key key (items ls)) ∧
      (key ∈ keys (items ls) ↔ (xs[rank (keys xs) key]?).any fun kv => kv.key = key) := by
  have holds := h.root
  rw [hroot] at holds
  obtain ⟨before, p, xs, after, rfl, hp, hbelow, habove⟩ := descend_spec search holds h.sorted key
  have hxs : Sorted KeyValue.key xs := by
    have hsorted := h.sorted
    rw [items_append, items_cons] at hsorted
    exact (List.pairwise_append.mp (List.pairwise_append.mp hsorted).2.1).1
  have hle : rank (keys xs) key ≤ xs.length := (rank_le_length _ _).trans_eq (List.length_map _)
  have hlt : after ≠ [] → rank (keys xs) key < xs.length := by
    intro hafter
    obtain ⟨x, hx, hge⟩ := habove hafter
    exact (rank_lt_length ⟨x.key, mem_keys_of_mem hx, hge⟩).trans_eq (List.length_map _)
  have hitems := lowerBound_items p hbelow habove
  refine ⟨before, p, xs, after, rfl, hp, findLower_eq search (List.pairwise_map.mpr hxs) key,
    .inr ⟨before, p, xs, after, rfl, rfl, hle, hlt, hitems⟩, ?_⟩
  have hhead : (xs.drop (rank (keys xs) key) ++ items after).head? = xs[rank (keys xs) key]? := by
    by_cases hslot : rank (keys xs) key < xs.length
    · rw [List.drop_eq_getElem_cons hslot, List.getElem?_eq_getElem hslot]
      rfl
    · have hafter : after = [] := not_not.mp fun hne => hslot (hlt hne)
      rw [hafter, List.drop_eq_nil_of_le (not_lt.mp hslot), List.getElem?_eq_none (not_lt.mp hslot)]
      rfl
  rw [mem_keys, ← head_lowerBound_iff h.sorted, hitems, hhead]
  cases xs[rank (keys xs) key]? <;> simp

theorem Shaped.lowerBound_spec (h : tree.Shaped t ls) (key : K) :
    Returns (tree.lowerBound search key) fun it => it.At ls (SortedList.lowerBound KeyValue.key key (items ls)) := by
  unfold Btree.lowerBound
  cases hroot : tree.root with
  | none =>
    have hnil := h.root
    rw [hroot] at hnil
    subst hnil
    exact Iterator.At.of_end h.chains
  | some root =>
    obtain ⟨before, p, xs, after, rfl, hp, hslot, hat, -⟩ := h.search_spec search key hroot
    dsimp only
    simp only [hp, h.chains.get, Option.bind_eq_bind, Option.bind_some, hslot]
    exact Returns.some_iff.mpr hat

theorem Shaped.find_spec (h : tree.Shaped t ls) (key : K) :
    Returns (tree.find search key) fun it =>
      it.At ls (if key ∈ keys (items ls) then SortedList.lowerBound KeyValue.key key (items ls) else []) := by
  unfold Btree.find
  cases hroot : tree.root with
  | none =>
    have hnil := h.root
    rw [hroot] at hnil
    subst hnil
    exact Iterator.At.of_end h.chains
  | some root =>
    obtain ⟨before, p, xs, after, rfl, hp, hslot, hat, hmem⟩ := h.search_spec search key hroot
    dsimp only
    simp only [hp, h.chains.get, Option.bind_eq_bind, Option.bind_some, hslot]
    split_ifs with hkey hfound hfound
    · exact Returns.some_iff.mpr hat
    · exact absurd (hmem.mpr hkey) hfound
    · exact absurd (hmem.mp hfound) hkey
    · exact Iterator.At.of_end h.chains

end Btree

end Search

end LearnedIndex.BTree
