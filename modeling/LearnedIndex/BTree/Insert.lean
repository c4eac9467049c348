import LearnedIndex.BTree.Leaves

/-! Insertion into a tree: the pair comes in front of those with its key, and the nodes that are
split on the way are all at least half full. -/

namespace LearnedIndex.BTree

open Util SortedList

section Lists

variable {α : Type} {xs ys : List α} {i : Nat} {a : α}

theorem insertIdx_append_right (h : xs.length ≤ i) :
    (xs ++ ys).insertIdx i a = xs ++ ys.insertIdx (i - xs.length) a := by
  induction xs generalizing i with
  | nil => rfl
  | cons x xs ih =>
    obtain ⟨i, rfl⟩ : ∃ j, i = j + 1 := ⟨i - 1, by rw [List.length_cons] at h; omega⟩
    rw [List.length_cons, Nat.add_le_add_iff_right] at h
    rw [List.cons_append, List.insertIdx_succ_cons, ih h, List.length_cons, Nat.add_sub_add_right]
    rfl

theorem insertIdx_append_left (h : i ≤ xs.length) : (xs ++ ys).insertIdx i a = xs.insertIdx i a ++ ys := by
  induction xs generalizing i with
  | nil =>
    obtain rfl : i = 0 := Nat.le_zero.mp h
    rfl
  | cons x xs ih =>
    cases i with
    | zero => rfl
    | succ i =>
      rw [List.length_cons, Nat.add_le_add_iff_right] at h
      rw [List.cons_append, List.insertIdx_succ_cons, ih h, List.insertIdx_succ_cons, List.cons_append]

theorem insertIdx_length (xs ys : List α) (a : α) : (xs ++ ys).insertIdx xs.length a = xs ++ a :: ys := by
  rw [insertIdx_append_right le_rfl, Nat.sub_self, List.insertIdx_zero]

theorem getLast?_insertIdx (h : i < xs.length) : (xs.insertIdx i a).getLast? = xs.getLast? := by
  rw [List.getLast?_eq_getElem?, List.getLast?_eq_getElem?, List.length_insertIdx_of_le_length h.le,
    List.getElem?_insertIdx_of_gt (by omega)]
  rfl

end Lists

variable {K : Type} [LinearOrder K] {t : Traits} {search : Search K} {kv : KeyValue K}

/-- A leaf finds the place in front of the pairs with the key. -/
theorem insertIdx_findLower {xs : List (KeyValue K)} (hsorted : Sorted KeyValue.key xs) (search : Search K) :
    xs.insertIdx (findLower search (keys xs) kv.key) kv = insertLower KeyValue.key kv xs := by
  have hkeys : (keys xs).Pairwise (· ≤ ·) := List.pairwise_map.mpr hsorted
  have hrank : rank (keys xs) kv.key = (xs.takeWhile fun x => decide (x.key < kv.key)).length := by
    rw [rank, keys, List.takeWhile_map, List.length_map]
    rfl
  have hplace := insertIdx_length (xs.takeWhile fun x => decide (x.key < kv.key))
    (xs.dropWhile fun x => decide (x.key < kv.key)) kv
  rw [List.takeWhile_append_dropWhile] at hplace
  rw [findLower_eq search hkeys, hrank, hplace]
  rfl

theorem findLower_le {xs : List (KeyValue K)} (hsorted : Sorted KeyValue.key xs) (search : Search K) (key : K) :
    findLower search (keys xs) key ≤ xs.length := by
  have hkeys : (keys xs).Pairwise (· ≤ ·) := List.pairwise_map.mpr hsorted
  rw [findLower_eq search hkeys]
  exact (rank_le_length _ _).trans_eq (List.length_map _)

section InnerNode

variable {N : Type} {inner : InnerNode K N} {slot : Nat} {newkey : K} {newchild : N}

omit [LinearOrder K]

/-- The slots between `mininnerslots` and `innerslotmax`. -/
def InnerNode.Fits (t : Traits) (inner : InnerNode K N) : Prop :=
  inner.childid.length = inner.slotkey.length + 1 ∧
    t.mininnerslots ≤ inner.slotkey.length ∧ inner.slotkey.length ≤ t.innerslotmax

/-- A full node in two halves: where the slot says, there is room for one more key. -/
structure InnerNode.Halves (t : Traits) (inner : InnerNode K N) (slot : Nat) (left : InnerNode K N) (k : K)
    (right : InnerNode K N) : Prop where
  slotkey : inner.slotkey = left.slotkey ++ k :: right.slotkey
  childid : inner.childid = left.childid ++ right.childid
  left_children : left.childid.length = left.slotkey.length + 1
  right_children : right.childid.length = right.slotkey.length + 1
  left_slots : t.mininnerslots ≤ left.slotkey.length + 1
  right_slots : t.mininnerslots ≤ right.slotkey.length + 1
  of_le : slot ≤ left.slotkey.length → t.mininnerslots ≤ right.slotkey.length
  of_lt : left.slotkey.length < slot → t.mininnerslots ≤ left.slotkey.length ∨
    slot = left.slotkey.length + 1 ∧ left.slotkey.length < right.slotkey.length

theorem InnerNode.split_spec (hlen : inner.childid.length = inner.slotkey.length + 1)
    (hfull : inner.slotkey.length = t.innerslotmax) (slot : Nat) :
    Returns (inner.split slot) fun (left, k, right) => inner.Halves t slot left k right := by
  have hge := t.innerslotmax_ge
  have hmin : t.mininnerslots = t.innerslotmax / 2 := rfl
  generalize hmid : (if slot ≤ inner.slotkey.length / 2 ∧
      inner.slotkey.length - (inner.slotkey.length / 2 + 1) < inner.slotkey.length / 2
    then inner.slotkey.length / 2 - 1 else inner.slotkey.length / 2) = mid
  have hlt : mid < inner.slotkey.length := by
    rw [← hmid]
    split <;> omega
  have htake : (inner.slotkey.take mid).length = mid := by rw [List.length_take]; omega
  have hdrop : (inner.slotkey.drop (mid + 1)).length = inner.slotkey.length - (mid + 1) := List.length_drop
  unfold InnerNode.split
  dsimp only
  rw [hmid, List.getElem?_eq_getElem hlt, Option.bind_eq_bind, Option.bind_some, Option.pure_def, Returns.some_iff]
  constructor
  · exact (List.take_append_drop mid _).symm.trans (by rw [List.drop_eq_getElem_cons hlt])
  · exact (List.take_append_drop _ _).symm
  · dsimp only
    rw [htake, List.length_take]
    omega
  · dsimp only
    rw [hdrop, List.length_drop]
    omega
  all_goals
    simp only [htake, hdrop]
    split_ifs at hmid <;> omega

/-- The keys and children of a node that has got one more of each, or of its two halves. -/
def InnerNode.Divided (t : Traits) (inner : InnerNode K N) (split : Option (K × InnerNode K N)) (ks : List K)
    (cs : List N) : Prop :=
  match split with
  | none => inner.slotkey = ks ∧ inner.childid = cs ∧ ks.length ≤ t.innerslotmax
  | some (k, right) =>
    ks = inner.slotkey ++ k :: right.slotkey ∧ cs = inner.childid ++ right.childid ∧
      inner.Fits t ∧ right.Fits t

theorem InnerNode.insertChild_spec (hlen : inner.childid.length = inner.slotkey.length + 1)
    (hslot : slot ≤ inner.slotkey.length) (hmax : inner.slotkey.length ≤ t.innerslotmax) :
    Returns (inner.insertChild t slot newkey newchild) fun (inner', split) =>
      inner'.Divided t split (inner.slotkey.insertIdx slot newkey) (inner.childid.insertIdx (slot + 1) newchild) := by
  unfold InnerNode.insertChild
  split
  next hfull =>
    apply (split_spec hlen hfull slot).bind
    rintro ⟨left, k, right⟩ h
    have htotal : inner.slotkey.length = left.slotkey.length + (right.slotkey.length + 1) := by
      rw [h.slotkey, List.length_append, List.length_cons]
    have hleft := h.left_children
    have hright := h.right_children
    have hleftSlots := h.left_slots
    have hrightSlots := h.right_slots
    dsimp only
    split_ifs with hspecial hbehind
    · obtain ⟨first, rest, hrest⟩ := List.exists_cons_of_length_eq_add_one hright
      have hkeys : inner.slotkey = (left.slotkey ++ [k]) ++ right.slotkey := by
        rw [h.slotkey, List.append_assoc, List.singleton_append]
      have hchildren : inner.childid = (left.childid ++ [first]) ++ rest := by
        rw [h.childid, hrest, List.append_assoc, List.singleton_append]
      have hplace : slot = (left.slotkey ++ [k]).length := by rw [hspecial.1, List.length_append, List.length_singleton]
      have hchild : slot + 1 = (left.childid ++ [first]).length := by
        rw [hspecial.1, List.length_append, List.length_singleton, hleft]
      have hcount : right.childid.length = rest.length + 1 := by rw [hrest, List.length_cons]
      rw [hrest]
      refine Returns.some_iff.mpr ⟨?_, ?_, ⟨?_, ?_, ?_⟩, ⟨?_, ?_, ?_⟩⟩
      · rw [hkeys, hplace, insertIdx_length]
      · rw [hchildren, hchild, insertIdx_length]
        rfl
      all_goals simp only [List.length_append, List.length_cons, List.length_nil, List.length_set] at *
      all_goals omega
    · have hrightMax : right.slotkey.length < t.innerslotmax := by omega
      have hof := h.of_lt (by omega)
      rw [InnerNode.put, if_pos hrightMax]
      have hleftMin : t.mininnerslots ≤ left.slotkey.length := by omega
      have hleftMax : left.slotkey.length ≤ t.innerslotmax := by omega
      refine Returns.some_iff.mpr ⟨?_, ?_, ⟨hleft, hleftMin, hleftMax⟩, ⟨?_, ?_, ?_⟩⟩
      · rw [h.slotkey, ← List.singleton_append, ← List.append_assoc, insertIdx_append_right, List.append_assoc,
          List.length_append, List.length_singleton]
        · rfl
        · rw [List.length_append, List.length_singleton]
          exact hbehind
      · have hchild : slot + 1 - left.childid.length = slot - (left.slotkey.length + 1) + 1 := by omega
        rw [h.childid, insertIdx_append_right (by omega), hchild]
      all_goals simp only [List.length_insertIdx]
      all_goals split_ifs <;> omega
    · have hleftMax : left.slotkey.length < t.innerslotmax := by omega
      have hrightMin := h.of_le (by omega)
      have hrightMax : right.slotkey.length ≤ t.innerslotmax := by omega
      rw [InnerNode.put, if_pos hleftMax]
      refine Returns.some_iff.mpr ⟨?_, ?_, ⟨?_, ?_, ?_⟩, ⟨hright, hrightMin, hrightMax⟩⟩
      · rw [h.slotkey, insertIdx_append_left (by omega)]
      · rw [h.childid, insertIdx_append_left (by omega)]
      all_goals simp only [List.length_insertIdx]
      all_goals split_ifs <;> omega
  next hfull =>
    have hroom : inner.slotkey.length < t.innerslotmax := lt_of_le_of_ne hmax hfull
    rw [InnerNode.put, if_pos hroom]
    refine Returns.some_iff.mpr ⟨rfl, rfl, ?_⟩
    rw [List.length_insertIdx_of_le_length hslot]
    exact hroom

end InnerNode

/-- The inner nodes of a tree. -/
def innernodes : (level : Nat) → Node K level → Nat
  | 0, _ => 0
  | level + 1, inner =>
    let inner : InnerNode K (Node K level) := inner
    (inner.childid.map (innernodes level)).sum + 1

namespace Inserted

/-- The leaves below the node, or below the two that it has become. -/
def Holds (t : Traits) (root : Bool) (level : Nat) (r : Inserted K (Node K level)) (ls : List (Leaf K)) : Prop :=
  match r.split with
  | none => BTree.Holds t root level r.node ls
  | some (splitkey, sibling) => ∃ left right, ls = left ++ right ∧ maxKey left = some splitkey ∧
      BTree.Holds t false level r.node left ∧ BTree.Holds t false level sibling right

def innernodes (level : Nat) (r : Inserted K (Node K level)) : Nat :=
  match r.split with
  | none => BTree.innernodes level r.node
  | some (_, sibling) => BTree.innernodes level r.node + BTree.innernodes level sibling

end Inserted

namespace InnerNode.Divided

omit [LinearOrder K]

variable {level : Nat} {inner : InnerNode K (Node K level)} {split : Option (K × InnerNode K (Node K level))}
  {ks : List K} {cs : List (Node K level)} {lss : List (List (Leaf K))} {root : Bool}

theorem holds (h : inner.Divided t split ks cs) (hdivides : Divides ks lss)
    (hchildren : List.Forall₂ (BTree.Holds t false level) cs lss)
    (hmin : (if root then 1 else t.mininnerslots) ≤ ks.length) (it : Iterator) :
    Inserted.Holds t root (level + 1) ⟨inner, split, it⟩ lss.flatten := by
  cases split with
  | none =>
    obtain ⟨rfl, rfl, hmax⟩ := h
    exact ⟨lss, rfl, hdivides, hchildren, hmin, hmax⟩
  | some sibling =>
    obtain ⟨k, right⟩ := sibling
    obtain ⟨rfl, rfl, ⟨hlen, hleft⟩, -, hright⟩ := h
    obtain ⟨front, rest, rfl, hfront, hmax, hrest⟩ := hdivides.split
    obtain ⟨hfronts, hrests⟩ := (forall₂_append_iff (hlen.trans hfront.length.symm)).mp hchildren
    exact ⟨front.flatten, rest.flatten, List.flatten_append, hmax, ⟨front, rfl, hfront, hfronts, hleft⟩,
      ⟨rest, rfl, hrest, hrests, hright⟩⟩

theorem innernodes (h : inner.Divided t split ks cs) (it : Iterator) :
    Inserted.innernodes (level + 1) ⟨inner, split, it⟩ =
      (cs.map (BTree.innernodes level)).sum + if split.isSome then 2 else 1 := by
  cases split with
  | none =>
    obtain ⟨rfl, rfl, -⟩ := h
    rfl
  | some sibling =>
    obtain ⟨k, right⟩ := sibling
    obtain ⟨rfl, rfl, -⟩ := h
    simp [Inserted.innernodes, BTree.innernodes]
    omega

end InnerNode.Divided

/-- The pair has come among the leaves below a node, and nothing else has changed. -/
structure Grows (t : Traits) (root : Bool) (kv : KeyValue K) (before after : List (Leaf K)) (level : Nat)
    (node : Node K level) (ls ls' : List (Leaf K)) (m m' : Memory K) (r : Inserted K (Node K level)) : Prop where
  chains : m'.Chains (before ++ ls' ++ after)
  items : items ls' = insertLower KeyValue.key kv (items ls)
  holds : r.Holds t root level ls'
  it : r.it.deref m' = some kv
  itemcount : m'.stats.itemcount = m.stats.itemcount
  leaves : m'.stats.leaves + ls.length = m.stats.leaves + ls'.length
  innernodes : m'.stats.innernodes + innernodes level node = m.stats.innernodes + r.innernodes level

theorem insertLeaf_spec (root : Bool) {m : Memory K} {before after : List (Leaf K)} {p : Pointer}
    {xs : List (KeyValue K)} (hchains : m.Chains (before ++ (p, xs) :: after)) (hsorted : Sorted KeyValue.key xs)
    (hmin : root = true ∨ t.minleafslots ≤ xs.length) (hmax : xs.length ≤ t.leafslotmax) :
    Returns (insertLeaf t search kv p m) fun (r, m') =>
      ∃ ls', Grows t root kv before after 0 p [(p, xs)] ls' m m' r := by
  have hge := t.leafslotmax_ge
  have hhalf : t.minleafslots = t.leafslotmax / 2 := rfl
  have hslot := findLower_le hsorted search kv.key
  have hplace : xs.insertIdx (findLower search (keys xs) kv.key) kv = insertLower KeyValue.key kv xs :=
    insertIdx_findLower hsorted search
  have hitems : items [(p, xs)] = xs := List.append_nil xs
  have holds : ∀ (r : Pointer) {ys : List (KeyValue K)}, t.minleafslots ≤ ys.length → ys.length ≤ t.leafslotmax →
      Holds t false 0 r [(r, ys)] := fun r ys hmin hmax => ⟨ys, rfl, hmin, hmax⟩
  unfold insertLeaf
  rw [hchains.get, Option.bind_eq_bind, Option.bind_some]
  dsimp only
  generalize findLower search (keys xs) kv.key = slot at hslot hplace
  split
  next hfull =>
    apply (Memory.splitLeafNode_spec hchains (by omega)).bind
    rintro ⟨k, q, m₁⟩ ⟨hsplit, hk, hstats⟩
    generalize hleft : xs.take (xs.length / 2) = left at hsplit hk
    generalize hright : xs.drop (xs.length / 2) = right at hsplit
    have hxs : xs = left ++ right := by rw [← hleft, ← hright, List.take_append_drop]
    have hleftLen : left.length = xs.length / 2 := by rw [← hleft, List.length_take]; omega
    have hrightLen : right.length = xs.length - xs.length / 2 := by rw [← hright, List.length_drop]
    dsimp only
    rw [hsplit.get, Option.bind_some]
    dsimp only
    split_ifs with hbehind hlast
    · -- The new pair is in the new leaf.
      have hsplit' : m₁.Chains ((before ++ [(p, left)]) ++ (q, right) :: after) := by simpa using hsplit
      have hroom : right.length < t.leafslotmax := by omega
      have hwhere : slot - left.length ≤ right.length := by rw [hxs, List.length_append] at hslot; omega
      have hlen := List.length_insertIdx_of_le_length hwhere kv
      apply (Memory.put_spec hsplit' hroom (slot - left.length) kv).bind
      rintro m' ⟨hput, hstats'⟩
      refine Returns.some_iff.mpr ⟨[(p, left), (q, right.insertIdx (slot - left.length) kv)], ?_, ?_, ?_, ?_, ?_, ?_, ?_⟩
      · simpa using hput
      · rw [hitems, ← hplace, hxs, insertIdx_append_right hbehind]
        simp
      · exact ⟨[(p, left)], [(q, _)], rfl, hk, holds p (by omega) (by omega), holds q (by omega) (by omega)⟩
      · rw [hput.deref, List.getElem?_insertIdx_self, if_pos hwhere]
      · rw [hstats', hstats]
      · rw [hstats', hstats]
        exact Nat.add_right_comm _ _ _
      · rw [hstats', hstats]
        rfl
    · omega
    · -- It is in the old one, but not the last of it.
      have hroom : left.length < t.leafslotmax := by omega
      have hlen := List.length_insertIdx_of_le_length (not_le.mp hbehind).le kv
      apply (Memory.put_spec hsplit hroom slot kv).bind
      rintro m' ⟨hput, hstats'⟩
      refine Returns.some_iff.mpr ⟨[(p, left.insertIdx slot kv), (q, right)], ?_, ?_, ?_, ?_, ?_, ?_, ?_⟩
      · simpa using hput
      · rw [hitems, ← hplace, hxs, insertIdx_append_left (not_le.mp hbehind).le]
        simp
      · refine ⟨[(p, left.insertIdx slot kv)], [(q, right)], rfl, ?_, holds p (by omega) (by omega), holds q (by omega) (by omega)⟩
        rw [← hk]
        simp [maxKey, getLast?_insertIdx (not_le.mp hbehind)]
      · rw [hput.deref, List.getElem?_insertIdx_self, if_pos (not_le.mp hbehind).le]
      · rw [hstats', hstats]
      · rw [hstats', hstats]
        exact Nat.add_right_comm _ _ _
      · rw [hstats', hstats]
        rfl
  next hfull =>
    have hroom : xs.length < t.leafslotmax := lt_of_le_of_ne hmax hfull
    have hlen : (xs.insertIdx slot kv).length = xs.length + 1 := List.length_insertIdx_of_le_length hslot kv
    apply (Memory.put_spec hchains hroom slot kv).bind
    rintro m' ⟨hput, hstats⟩
    refine Returns.some_iff.mpr ⟨[(p, xs.insertIdx slot kv)], ?_, ?_, ?_, ?_, ?_, ?_, ?_⟩
    · simpa using hput
    · simpa using hplace
    · refine ⟨_, rfl, ?_, ?_⟩
      · rw [hlen]
        obtain rfl | hmin := hmin
        · exact Nat.le_add_left 1 _
        · cases root with
          | true => exact Nat.le_add_left 1 _
          | false => exact Nat.le_succ_of_le hmin
      · omega
    · rw [hput.deref, List.getElem?_insertIdx_self, if_pos hslot]
    · rw [hstats]
    · rw [hstats]
      rfl
    · rw [hstats]
      rfl

namespace Takes

variable {root : Bool} {level : Nat} {inner : InnerNode K (Node K level)} {cb ca : List (Node K level)}
  {c child : Node K level} {lb la : List (List (Leaf K))} {l l' before after : List (Leaf K)} {m m' : Memory K}
  {it : Iterator}

theorem items_eq (h : Takes t kv.key inner cb c ca lb l la) (hl : items l' = insertLower KeyValue.key kv (items l)) :
    items (lb ++ l' :: la).flatten = insertLower KeyValue.key kv (items (lb ++ l :: la).flatten) := by
  simp only [List.flatten_append, List.flatten_cons, items_append]
  rw [insertLower_append_left h.below, hl]
  by_cases hla : la = []
  · subst hla
    simp
  · rw [insertLower_append_right (h.above hla)]

theorem maxKey_eq (h : Takes t kv.key inner cb c ca lb l la) (hl : items l' = insertLower KeyValue.key kv (items l))
    (hla : la ≠ []) : maxKey l' = maxKey l := by
  rw [maxKey, maxKey, hl, getLast?_insertLower (h.above hla)]

theorem innernodes_eq (h : Takes t kv.key inner cb c ca lb l la) :
    innernodes (level + 1) inner =
      (cb.map (innernodes level)).sum + (innernodes level c + (ca.map (innernodes level)).sum) + 1 := by
  simp only [innernodes, h.childid, List.map_append, List.map_cons, List.sum_append, List.sum_cons]

/-- The child has kept to itself. -/
theorem grows (h : Takes t kv.key inner cb c ca lb l la)
    (hfilled : Filled root t.mininnerslots t.innerslotmax inner.slotkey.length)
    (hgrows : Grows t false kv (before ++ lb.flatten) (la.flatten ++ after) level c l l' m m' ⟨child, none, it⟩) :
    Grows t root kv before after (level + 1) inner (lb ++ l :: la).flatten (lb ++ l' :: la).flatten m m'
      ⟨(⟨inner.slotkey, cb ++ child :: ca⟩ : InnerNode K (Node K level)), none, it⟩ := by
  have hleaves := hgrows.leaves
  have hinner := hgrows.innernodes
  refine ⟨?_, h.items_eq hgrows.items, ?_, hgrows.it, hgrows.itemcount, ?_, ?_⟩
  · simpa using hgrows.chains
  · exact ⟨lb ++ l' :: la, rfl, h.divides.replace (h.maxKey_eq hgrows.items),
      List.rel_append h.front (.cons hgrows.holds h.rest), hfilled⟩
  · simp
    omega
  · rw [h.innernodes_eq]
    simp only [Inserted.innernodes, innernodes, List.map_append, List.map_cons, List.sum_append,
      List.sum_cons] at hinner ⊢
    omega

/-- The child has got a sibling. -/
theorem grows_sibling {newkey : K} {newchild : Node K level} {inner' : InnerNode K (Node K level)}
    {split : Option (K × InnerNode K (Node K level))} (h : Takes t kv.key inner cb c ca lb l la)
    (hfilled : Filled root t.mininnerslots t.innerslotmax inner.slotkey.length)
    (hgrows : Grows t false kv (before ++ lb.flatten) (la.flatten ++ after) level c l l' m m'
      ⟨child, some (newkey, newchild), it⟩)
    (hdivided : inner'.Divided t split (inner.slotkey.insertIdx cb.length newkey) (cb ++ child :: newchild :: ca)) :
    Grows t root kv before after (level + 1) inner (lb ++ l :: la).flatten (lb ++ l' :: la).flatten m
      (if split.isSome then m'.allocateInner else m') ⟨inner', split, it⟩ := by
  have hleaves := hgrows.leaves
  have hinner := hgrows.innernodes
  have hstats : (if split.isSome then m'.allocateInner else m').stats =
      { m'.stats with innernodes := m'.stats.innernodes + if split.isSome then 1 else 0 } := by
    split <;> rfl
  obtain ⟨left, right, rfl, hleft, hheldLeft, hheldRight⟩ := hgrows.holds
  have hmax : la ≠ [] → maxKey right = maxKey l := by
    intro hla
    rw [← h.maxKey_eq hgrows.items hla, maxKey_append hheldRight.items_ne_nil]
  have hdivides := h.divides.insert hleft hmax
  rw [← h.front.length_eq] at hdivides
  have hchildren : List.Forall₂ (Holds t false level) (cb ++ child :: newchild :: ca) (lb ++ left :: right :: la) :=
    List.rel_append h.front (.cons hheldLeft (.cons hheldRight h.rest))
  have hslot : cb.length ≤ inner.slotkey.length := by
    have hlen := h.divides.length
    rw [List.length_append, List.length_cons, ← h.front.length_eq] at hlen
    omega
  have hmin : (if root then 1 else t.mininnerslots) ≤ (inner.slotkey.insertIdx cb.length newkey).length := by
    rw [List.length_insertIdx_of_le_length hslot]
    exact Nat.le_succ_of_le hfilled.1
  have hchains : m'.Chains (before ++ (lb ++ (left ++ right) :: la).flatten ++ after) := by simpa using hgrows.chains
  refine ⟨?_, h.items_eq hgrows.items, ?_, ?_, ?_, ?_, ?_⟩
  · split
    · exact hchains.allocateInner
    · exact hchains
  · have hflat : (lb ++ (left ++ right) :: la).flatten = (lb ++ left :: right :: la).flatten := by simp
    rw [hflat]
    exact hdivided.holds hdivides hchildren hmin it
  · split
    · exact hgrows.it
    · exact hgrows.it
  · rw [hstats]
    exact hgrows.itemcount
  · rw [hstats]
    simp only [List.flatten_append, List.flatten_cons, List.length_append] at hleaves ⊢
    omega
  · rw [hstats, hdivided.innernodes, h.innernodes_eq]
    simp only [Inserted.innernodes, List.map_append, List.map_cons, List.sum_append, List.sum_cons] at hinner ⊢
    split_ifs <;> omega

end Takes

theorem insertDescend_spec {level : Nat} {root : Bool} {node : Node K level} {m : Memory K}
    {before ls after : List (Leaf K)} (holds : Holds t root level node ls)
    (hchains : m.Chains (before ++ ls ++ after)) (hsorted : Sorted KeyValue.key (items ls)) :
    Returns (insertDescend t search kv level node m) fun (r, m') =>
      ∃ ls', Grows t root kv before after level node ls ls' m m' r := by
  induction level generalizing root before ls after m with
  | zero =>
    change Pointer at node
    obtain ⟨slots, rfl, hmin, hmax⟩ := holds
    have hmin' : root = true ∨ t.minleafslots ≤ slots.length := by cases root <;> simp_all
    have hslots : Sorted KeyValue.key (slots ++ []) := hsorted
    rw [List.append_nil] at hslots
    have hmid : m.Chains (before ++ (node, slots) :: after) := by rwa [List.append_cons]
    exact insertLeaf_spec root hmid hslots hmin' hmax
  | succ level ih =>
    rw [insertDescend]
    dsimp only
    obtain ⟨cb, c, ca, lb, l, la, rfl, h, hslot, hfilled⟩ := holds.takes hsorted search kv.key
    change InnerNode K (Node K level) at node
    have hparts : m.Chains ((before ++ lb.flatten) ++ l ++ (la.flatten ++ after)) := by simpa using hchains
    rw [hslot, h.childid, List.getElem?_append_right le_rfl, Nat.sub_self, List.getElem?_cons_zero,
      Option.bind_eq_bind, Option.bind_some]
    apply (ih h.child hparts (sorted_child hsorted)).bind
    rintro ⟨⟨child, split, it⟩, m'⟩ ⟨l', hgrows⟩
    have hset : (cb ++ c :: ca).set cb.length child = cb ++ child :: ca := by simp
    dsimp only
    rw [hset]
    cases split with
    | none => exact Returns.some_iff.mpr ⟨_, h.grows hfilled hgrows⟩
    | some sibling =>
      obtain ⟨newkey, newchild⟩ := sibling
      have hspec : Returns (InnerNode.insertChild t ⟨node.slotkey, cb ++ child :: ca⟩ cb.length newkey newchild)
          fun inserted => inserted.1.Divided t inserted.2 (node.slotkey.insertIdx cb.length newkey)
            (cb ++ child :: newchild :: ca) := by
        have hcount := h.divides.length
        rw [List.length_append, List.length_cons, ← h.front.length_eq, ← h.rest.length_eq] at hcount
        have hlen : (cb ++ child :: ca).length = node.slotkey.length + 1 := by
          rw [List.length_append, List.length_cons, hcount]
        have hchild : (cb ++ child :: ca).insertIdx (cb.length + 1) newchild = cb ++ child :: newchild :: ca := by
          have hplace := insertIdx_length (cb ++ [child]) ca newchild
          simpa using hplace
        have hplace : cb.length ≤ node.slotkey.length := by omega
        rw [← hchild]
        exact InnerNode.insertChild_spec hlen hplace hfilled.2
      apply hspec.bind
      rintro ⟨inner', split⟩ hdivided
      exact Returns.some_iff.mpr ⟨_, h.grows_sibling hfilled hgrows hdivided⟩

end LearnedIndex.BTree
