import LearnedIndex.BTree.Defs
import Mathlib.Data.List.Forall2

/-! Which leaves a node has below it, and the keys that lead a descent to the right one: in front
of every child but the last stands its largest key. -/

namespace LearnedIndex.BTree

open Util SortedList

section Lists

variable {α β : Type} {R : α → β → Prop} {xs ys : List α}

theorem forall₂_append_iff {bs bs' : List β} (h : xs.length = bs.length) :
    List.Forall₂ R (xs ++ ys) (bs ++ bs') ↔ List.Forall₂ R xs bs ∧ List.Forall₂ R ys bs' := by
  induction xs generalizing bs with
  | nil =>
    obtain rfl := List.length_eq_zero_iff.mp h.symm
    simp
  | cons x xs ih =>
    obtain ⟨b, bs, rfl⟩ := List.exists_cons_of_length_eq_add_one h.symm
    rw [List.length_cons, List.length_cons, Nat.add_right_cancel_iff] at h
    rw [List.cons_append, List.cons_append, List.forall₂_cons, ih h, List.forall₂_cons, and_assoc]

theorem forall₂_split {bs bs' : List β} {b : β} (h : List.Forall₂ R xs (bs ++ b :: bs')) :
    ∃ front a rest, xs = front ++ a :: rest ∧ List.Forall₂ R front bs ∧ R a b ∧ List.Forall₂ R rest bs' := by
  induction bs generalizing xs with
  | nil =>
    obtain ⟨a, rest, ha, hrest, rfl⟩ := List.forall₂_cons_right_iff.mp h
    exact ⟨[], a, rest, rfl, .nil, ha, hrest⟩
  | cons b' bs ih =>
    obtain ⟨x, xs, hx, hxs, rfl⟩ := List.forall₂_cons_right_iff.mp h
    obtain ⟨front, a, rest, rfl, hfront, ha, hrest⟩ := ih hxs
    exact ⟨x :: front, a, rest, rfl, .cons hx hfront, ha, hrest⟩

end Lists

variable {K : Type}

/-- A leaf with its address. -/
abbrev Leaf (K : Type) := Pointer × List (KeyValue K)

def items (ls : List (Leaf K)) : List (KeyValue K) := ls.flatMap Prod.snd

@[simp] theorem items_nil : items ([] : List (Leaf K)) = [] := rfl

@[simp] theorem items_cons (l : Leaf K) (ls : List (Leaf K)) : items (l :: ls) = l.2 ++ items ls := rfl

@[simp] theorem items_append (ls ls' : List (Leaf K)) : items (ls ++ ls') = items ls ++ items ls' :=
  List.flatMap_append

def maxKey (ls : List (Leaf K)) : Option K := (items ls).getLast?.map KeyValue.key

theorem maxKey_append {ls ls' : List (Leaf K)} (h : items ls' ≠ []) : maxKey (ls ++ ls') = maxKey ls' := by
  rw [maxKey, maxKey, items_append, List.getLast?_append_of_ne_nil _ h]

theorem items_ne_nil {ls : List (Leaf K)} {k : K} (h : maxKey ls = some k) : items ls ≠ [] := by
  intro hnil
  rw [maxKey, hnil] at h
  cases h

/-- The keys between children that have these leaves. -/
inductive Divides : List K → List (List (Leaf K)) → Prop
  | last (ls : List (Leaf K)) : Divides [] [ls]
  | cons {k ks ls lss} (hk : maxKey ls = some k) (h : Divides ks lss) : Divides (k :: ks) (ls :: lss)

theorem divides_cons {k : K} {ks : List K} {ls : List (Leaf K)} {lss : List (List (Leaf K))} :
    Divides (k :: ks) (ls :: lss) ↔ maxKey ls = some k ∧ Divides ks lss := by
  constructor
  · intro h
    cases h with
    | cons hk h => exact ⟨hk, h⟩
  · exact fun ⟨hk, h⟩ => .cons hk h

namespace Divides

variable {ks ks' : List K} {ls : List (Leaf K)} {lss lss' : List (List (Leaf K))}

theorem length (h : Divides ks lss) : lss.length = ks.length + 1 := by
  induction h with
  | last ls => rfl
  | cons hk h ih => rw [List.length_cons, List.length_cons, ih]

/-- The first keys are the largest ones of the first children. -/
theorem append_iff (hlen : ks.length = lss.length) :
    Divides (ks ++ ks') (lss ++ lss') ↔
      List.Forall₂ (fun k ls => maxKey ls = some k) ks lss ∧ Divides ks' lss' := by
  induction ks generalizing lss with
  | nil =>
    obtain rfl := List.length_eq_zero_iff.mp hlen.symm
    simp
  | cons k ks ih =>
    obtain ⟨ls, lss, rfl⟩ := List.exists_cons_of_length_eq_add_one hlen.symm
    rw [List.length_cons, List.length_cons, Nat.add_right_cancel_iff] at hlen
    rw [List.cons_append, List.cons_append, divides_cons, ih hlen, List.forall₂_cons, and_assoc]

/-- Other leaves below one child, with the same largest key where a key stands behind it. -/
theorem replace {ls' : List (Leaf K)} (h : Divides ks (lss ++ ls :: lss'))
    (hmax : lss' ≠ [] → maxKey ls' = maxKey ls) : Divides ks (lss ++ ls' :: lss') := by
  induction lss generalizing ks with
  | nil =>
    cases h with
    | last => exact .last ls'
    | cons hk h =>
      have hne : lss' ≠ [] := List.ne_nil_of_length_pos (by rw [h.length]; exact Nat.succ_pos _)
      exact .cons ((hmax hne).trans hk) h
  | cons first lss ih =>
    cases ks with
    | nil =>
      have hlen := h.length
      simp at hlen
    | cons k ks =>
      obtain ⟨hk, h⟩ := divides_cons.mp h
      exact .cons hk (ih h)

/-- One child becomes two, with a new key between them. -/
theorem insert {left right : List (Leaf K)} {k : K} (h : Divides ks (lss ++ ls :: lss')) (hk : maxKey left = some k)
    (hmax : lss' ≠ [] → maxKey right = maxKey ls) :
    Divides (ks.insertIdx lss.length k) (lss ++ left :: right :: lss') := by
  induction lss generalizing ks with
  | nil =>
    have hfirst : Divides ks ([] ++ ls :: lss') := h
    exact .cons hk (hfirst.replace hmax)
  | cons first lss ih =>
    cases ks with
    | nil =>
      have hlen := h.length
      simp at hlen
    | cons k' ks =>
      obtain ⟨hk', h⟩ := divides_cons.mp h
      exact .cons hk' (ih h)

/-- The key in the middle is the largest one of the children in front of it. -/
theorem split {k : K} (h : Divides (ks ++ k :: ks') lss) :
    ∃ left right, lss = left ++ right ∧ Divides ks left ∧ maxKey left.flatten = some k ∧ Divides ks' right := by
  induction ks generalizing lss with
  | nil =>
    cases h with
    | @cons _ _ ls lss hk h => exact ⟨[ls], lss, rfl, .last ls, by simpa using hk, h⟩
  | cons k' ks ih =>
    cases h with
    | @cons _ _ ls lss hk h =>
      obtain ⟨left, right, rfl, hleft, hmax, hright⟩ := ih h
      refine ⟨ls :: left, right, rfl, .cons hk hleft, ?_, hright⟩
      rw [List.flatten_cons, maxKey_append (items_ne_nil hmax), hmax]

/-- Every key is the one of a pair. -/
theorem exists_item (h : Divides ks lss) {k : K} (hk : k ∈ ks) : ∃ x ∈ items lss.flatten, x.key = k := by
  induction h with
  | last ls => cases hk
  | @cons k' ks ls lss hmax h ih =>
    rw [List.flatten_cons, items_append]
    obtain rfl | hk := List.mem_cons.mp hk
    · obtain ⟨x, hx, rfl⟩ := Option.map_eq_some_iff.mp hmax
      exact ⟨x, List.mem_append_left _ (List.mem_of_getLast? hx), rfl⟩
    · obtain ⟨x, hx, rfl⟩ := ih hk
      exact ⟨x, List.mem_append_right _ hx, rfl⟩

end Divides

section Order

variable [LinearOrder K] {ks : List K} {ls : List (Leaf K)} {lss : List (List (Leaf K))}

theorem le_of_maxKey {k : K} (hsorted : Sorted KeyValue.key (items ls)) (hmax : maxKey ls = some k)
    {x : KeyValue K} (hx : x ∈ items ls) : x.key ≤ k := by
  obtain ⟨y, hy, rfl⟩ := Option.map_eq_some_iff.mp hmax
  obtain ⟨init, hinit⟩ := List.getLast?_eq_some_iff.mp hy
  rw [hinit] at hsorted hx
  obtain hx | hx := List.mem_append.mp hx
  · exact (List.pairwise_append.mp hsorted).2.2 x hx y (List.mem_singleton_self y)
  · rw [List.mem_singleton.mp hx]

namespace Divides

theorem pairwise (h : Divides ks lss) (hsorted : Sorted KeyValue.key (items lss.flatten)) :
    ks.Pairwise (· ≤ ·) := by
  induction h with
  | last ls => exact .nil
  | @cons k ks ls lss hmax h ih =>
    rw [List.flatten_cons, items_append] at hsorted
    obtain ⟨-, hrest, hcross⟩ := List.pairwise_append.mp hsorted
    refine List.pairwise_cons.mpr ⟨fun k' hk' => ?_, ih hrest⟩
    obtain ⟨x, hx, rfl⟩ := Option.map_eq_some_iff.mp hmax
    obtain ⟨y, hy, rfl⟩ := h.exists_item hk'
    exact hcross x (List.mem_of_getLast? hx) y hy

/-- The child that a descent takes: the key is not in those before it, and those behind it need
not be looked at. -/
theorem descends (h : Divides ks lss) (hsorted : Sorted KeyValue.key (items lss.flatten)) (key : K) :
    ∃ before ls after, lss = before ++ ls :: after ∧ before.length = rank ks key ∧
      (∀ x ∈ items before.flatten, x.key < key) ∧ (after ≠ [] → ∃ x ∈ items ls, key ≤ x.key) := by
  induction h with
  | last ls => exact ⟨[], ls, [], rfl, rfl, fun x hx => absurd hx List.not_mem_nil, fun h => absurd rfl h⟩
  | @cons k ks ls lss hmax h ih =>
    rw [List.flatten_cons, items_append] at hsorted
    obtain ⟨hfirst, hrest, -⟩ := List.pairwise_append.mp hsorted
    by_cases hlt : k < key
    · obtain ⟨before, ls', after, rfl, hlen, hbelow, habove⟩ := ih hrest
      refine ⟨ls :: before, ls', after, rfl, ?_, ?_, habove⟩
      · rw [List.length_cons, hlen]
        simp [rank, hlt]
      · intro x hx
        rw [List.flatten_cons, items_append] at hx
        obtain hx | hx := List.mem_append.mp hx
        · exact (le_of_maxKey hfirst hmax hx).trans_lt hlt
        · exact hbelow x hx
    · obtain ⟨y, hy, rfl⟩ := Option.map_eq_some_iff.mp hmax
      refine ⟨[], ls, lss, rfl, ?_, fun x hx => absurd hx List.not_mem_nil, fun _ => ?_⟩
      · simp [rank, hlt]
      · exact ⟨y, List.mem_of_getLast? hy, not_lt.mp hlt⟩

end Divides

theorem findLower_eq (search : Search K) (hks : ks.Pairwise (· ≤ ·)) (key : K) :
    findLower search ks key = rank ks key := by
  have hrank := rank_le_length ks key
  rw [findLower, search.lowerBound_eq hks le_rfl (Nat.zero_le _) le_rfl, min_eq_right hrank, Nat.zero_max]

end Order

/-- A node other than the root is at least half full. -/
def Filled (root : Bool) (min max n : Nat) : Prop := (if root then 1 else min) ≤ n ∧ n ≤ max

/-- A node on a level has these leaves below it. -/
def Holds (t : Traits) : (root : Bool) → (level : Nat) → Node K level → List (Leaf K) → Prop
  | root, 0, p, ls =>
    ∃ slots, ls = [(p, slots)] ∧ Filled root t.minleafslots t.leafslotmax slots.length
  | root, level + 1, inner, ls =>
    let inner : InnerNode K (Node K level) := inner
    ∃ lss, ls = lss.flatten ∧ Divides inner.slotkey lss ∧
      List.Forall₂ (Holds t false level) inner.childid lss ∧
      Filled root t.mininnerslots t.innerslotmax inner.slotkey.length

section Holds

variable {t : Traits} {root : Bool} {min max n : Nat}

theorem Filled.pos (h : Filled root min max n) (hmin : 0 < min) : 0 < n := by
  cases root with
  | true => exact h.1
  | false => exact hmin.trans_le h.1

/-- A node that is full enough for any place is so for the root. -/
theorem Filled.grow {n' : Nat} (h : Filled root min max n) (hn : n ≤ n') (hmax : n' ≤ max) :
    Filled root min max n' := ⟨h.1.trans hn, hmax⟩

theorem Traits.minleafslots_pos (t : Traits) : 0 < t.minleafslots :=
  Nat.div_pos (by have := t.leafslotmax_ge; omega) (by decide)

theorem Traits.mininnerslots_pos (t : Traits) : 0 < t.mininnerslots :=
  Nat.div_pos (by have := t.innerslotmax_ge; omega) (by decide)

theorem exists_child {level : Nat} {cs : List (Node K level)} {lss : List (List (Leaf K))} {ls : List (Leaf K)}
    (h : List.Forall₂ (Holds t false level) cs lss) (hls : ls ∈ lss) : ∃ c, Holds t false level c ls := by
  obtain ⟨i, hi, rfl⟩ := List.getElem_of_mem hls
  have hlen := h.length_eq
  exact ⟨_, h.get (by omega) hi⟩

theorem Holds.ne_nil {level : Nat} {node : Node K level} {ls : List (Leaf K)}
    (h : Holds t root level node ls) : ls ≠ [] ∧ ∀ l ∈ ls, l.2 ≠ [] := by
  induction level generalizing root ls with
  | zero =>
    obtain ⟨slots, rfl, hfilled⟩ := h
    refine ⟨List.cons_ne_nil _ _, fun l hl => ?_⟩
    obtain rfl := List.mem_singleton.mp hl
    exact List.ne_nil_of_length_pos (hfilled.pos t.minleafslots_pos)
  | succ level ih =>
    obtain ⟨lss, rfl, hdivides, hchildren, -⟩ := h
    have hall : ∀ ls ∈ lss, ls ≠ [] ∧ ∀ l ∈ ls, l.2 ≠ [] := by
      intro ls hls
      obtain ⟨c, hc⟩ := exists_child hchildren hls
      exact ih hc
    constructor
    · have hlen := hdivides.length
      obtain ⟨ls, lss, rfl⟩ := List.exists_cons_of_length_eq_add_one hlen
      simp [(hall ls List.mem_cons_self).1]
    · intro l hl
      obtain ⟨ls, hls, hl⟩ := List.mem_flatten.mp hl
      exact (hall ls hls).2 l hl

theorem Holds.items_ne_nil {level : Nat} {node : Node K level} {ls : List (Leaf K)}
    (h : Holds t root level node ls) : items ls ≠ [] := by
  obtain ⟨hne, hslots⟩ := h.ne_nil
  obtain ⟨l, ls, rfl⟩ := List.exists_cons_of_ne_nil hne
  rw [items_cons]
  exact List.append_ne_nil_of_left_ne_nil (hslots l List.mem_cons_self) _

end Holds

section Takes

variable [LinearOrder K] {t : Traits} {level : Nat} {l : List (Leaf K)} {lb la : List (List (Leaf K))}

/-- The child that a key takes at a node, among the others. -/
structure Takes (t : Traits) (key : K) (inner : InnerNode K (Node K level)) (cb : List (Node K level))
    (c : Node K level) (ca : List (Node K level)) (lb : List (List (Leaf K))) (l : List (Leaf K))
    (la : List (List (Leaf K))) : Prop where
  childid : inner.childid = cb ++ c :: ca
  divides : Divides inner.slotkey (lb ++ l :: la)
  front : List.Forall₂ (Holds t false level) cb lb
  child : Holds t false level c l
  rest : List.Forall₂ (Holds t false level) ca la
  below : ∀ x ∈ items lb.flatten, x.key < key
  above : la ≠ [] → ∃ x ∈ items l, key ≤ x.key

theorem Holds.takes {root : Bool} {inner : InnerNode K (Node K level)} {ls : List (Leaf K)}
    (h : Holds t root (level + 1) inner ls) (hsorted : Sorted KeyValue.key (items ls)) (search : Search K) (key : K) :
    ∃ cb c ca lb l la, ls = (lb ++ l :: la).flatten ∧ Takes t key inner cb c ca lb l la ∧
      findLower search inner.slotkey key = cb.length ∧
      Filled root t.mininnerslots t.innerslotmax inner.slotkey.length := by
  obtain ⟨lss, rfl, hdivides, hchildren, hfilled⟩ := h
  have hkeys := findLower_eq search (hdivides.pairwise hsorted) key
  obtain ⟨lb, l, la, rfl, hrank, hbelow, habove⟩ := hdivides.descends hsorted key
  obtain ⟨cb, c, ca, hcs, hlb, hc, hla⟩ := forall₂_split hchildren
  have hslot : findLower search inner.slotkey key = cb.length := by rw [hkeys, ← hrank, hlb.length_eq]
  exact ⟨cb, c, ca, lb, l, la, rfl, ⟨hcs, hdivides, hlb, hc, hla, hbelow, habove⟩, hslot, hfilled⟩

theorem sorted_child (h : Sorted KeyValue.key (items (lb ++ l :: la).flatten)) : Sorted KeyValue.key (items l) := by
  simp only [List.flatten_append, List.flatten_cons, items_append] at h
  exact (List.pairwise_append.mp (List.pairwise_append.mp h).2.1).1

end Takes

end LearnedIndex.BTree
