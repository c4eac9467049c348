import LearnedIndex.BTree.Shape

/-! The leaves in memory: which slots they have, how they are linked, and what becomes of them when
a pair is put into one of them. -/

namespace LearnedIndex.BTree

open Util SortedList

variable {K : Type}

namespace Memory

def slots (m : Memory K) (p : Pointer) : Option (List (KeyValue K)) := (m.get p).map LeafNode.slots

def links (m : Memory K) (p : Pointer) : Option (Links Pointer) :=
  (m.get p).map fun leaf => ⟨leaf.prevleaf, leaf.nextleaf⟩

/-- These leaves are in memory, linked in this order. -/
structure Chains (m : Memory K) (ls : List (Leaf K)) : Prop where
  slots : ∀ l ∈ ls, m.slots l.1 = some l.2
  linked : Linked m.links (ls.map Prod.fst)
  nodup : (ls.map Prod.fst).Nodup
  headleaf : m.headleaf = (ls.map Prod.fst).head?
  tailleaf : m.tailleaf = (ls.map Prod.fst).getLast?

section Access

variable {m : Memory K} {p q : Pointer} {leaf : LeafNode K} {f : LeafNode K → LeafNode K}

theorem lt_of_get (h : m.get p = some leaf) : p < m.nodes.length := (List.getElem?_eq_some_iff.mp h).1

theorem get_update (q : Pointer) :
    (m.update p f).get q = if p = q then (m.get q).map f else m.get q := by
  rw [get, get, update, List.getElem?_modify]
  split <;> simp_all

@[simp] theorem get_update_self : (m.update p f).get p = (m.get p).map f := by rw [get_update, if_pos rfl]

@[simp] theorem get_update_of_ne (h : p ≠ q) : (m.update p f).get q = m.get q := by rw [get_update, if_neg h]

@[simp] theorem length_update : (m.update p f).nodes.length = m.nodes.length := List.length_modify ..

@[simp] theorem length_setTailleaf : (m.setTailleaf p).nodes.length = m.nodes.length := rfl

@[simp] theorem get_setTailleaf : (m.setTailleaf p).get q = m.get q := rfl

theorem modify_eq (h : p < m.nodes.length) : m.modify p f = some (m.update p f) := if_pos h

theorem modify_bind {β : Type} {g : Memory K → Option β} (h : p < m.nodes.length) :
    (m.modify p f).bind g = g (m.update p f) := by rw [modify_eq h, Option.bind_some]

theorem get_allocateLeaf_self : m.allocateLeaf.2.get m.allocateLeaf.1 = some ⟨none, none, []⟩ := by
  simp [allocateLeaf, get]

theorem get_allocateLeaf (h : p ≠ m.allocateLeaf.1) : m.allocateLeaf.2.get p = m.get p := by
  rw [get, get, allocateLeaf, List.getElem?_append]
  split
  · rfl
  next hlt =>
    have hbehind : 1 ≤ p - m.nodes.length := Nat.sub_pos_of_lt (lt_of_le_of_ne (not_lt.mp hlt) h.symm)
    rw [List.getElem?_eq_none hbehind, List.getElem?_eq_none (not_lt.mp hlt)]

theorem get_allocated : m.get m.allocateLeaf.1 = none := List.getElem?_eq_none le_rfl

theorem ne_allocated (h : m.get p = some leaf) : p ≠ m.allocateLeaf.1 := (lt_of_get h).ne

end Access

namespace Chains

variable {m m' : Memory K} {ls before after : List (Leaf K)} {p : Pointer} {xs : List (KeyValue K)}

theorem get (h : m.Chains (before ++ (p, xs) :: after)) :
    m.get p = some ⟨(before.map Prod.fst).getLast?, (after.map Prod.fst).head?, xs⟩ := by
  have hslots := h.slots (p, xs) (by simp)
  have hlinked := h.linked
  rw [List.map_append, List.map_cons] at hlinked
  have hlinks := hlinked.at_mid
  rw [Memory.slots] at hslots
  rw [links] at hlinks
  cases hget : m.get p with
  | none =>
    rw [hget] at hslots
    cases hslots
  | some leaf =>
    rw [hget] at hslots hlinks
    cases leaf
    simp_all

theorem deref (h : m.Chains (before ++ (p, xs) :: after)) (slot : Nat) : (⟨some p, slot⟩ : Iterator).deref m = xs[slot]? := by
  rw [Iterator.deref, Option.bind_eq_bind, Option.bind_some, h.get]
  rfl

theorem nil : (empty : Memory K).Chains [] := by
  refine ⟨?_, Linked.nil _, List.nodup_nil, rfl, rfl⟩
  intro l hl
  cases hl

theorem singleton (h : m.get p = some ⟨none, none, xs⟩) (hhead : m.headleaf = some p) (htail : m.tailleaf = some p) :
    m.Chains [(p, xs)] := by
  refine ⟨?_, ?_, List.nodup_singleton _, hhead, htail⟩
  · intro l hl
    rw [List.mem_singleton.mp hl, Memory.slots, h]
    rfl
  · intro before q after hsplit
    obtain ⟨rfl, hq⟩ | ⟨-, hq⟩ := List.append_eq_singleton_iff.mp hsplit.symm
    · obtain ⟨rfl, rfl⟩ := List.cons.inj hq
      rw [links, h]
      rfl
    · cases hq

theorem allocateFirst (m : Memory K) : m.allocateFirst.Chains [(m.allocateLeaf.1, [])] :=
  singleton get_allocateLeaf_self rfl rfl

theorem counted (h : m.Chains ls) (stats : Stats) : ({ m with stats := stats } : Memory K).Chains ls :=
  ⟨h.slots, h.linked, h.nodup, h.headleaf, h.tailleaf⟩

theorem allocateInner (h : m.Chains ls) : m.allocateInner.Chains ls := h.counted _

end Chains

/-- A memory that differs only in the slots of one leaf. -/
theorem Chains.update {m : Memory K} {before after : List (Leaf K)} {p : Pointer} {xs : List (KeyValue K)}
    (h : m.Chains (before ++ (p, xs) :: after)) (f : List (KeyValue K) → List (KeyValue K)) :
    (m.update p fun leaf => { leaf with slots := f leaf.slots }).Chains (before ++ (p, f xs) :: after) := by
  have hpointers : (before ++ (p, f xs) :: after).map Prod.fst = (before ++ (p, xs) :: after).map Prod.fst := by simp
  have hlinks : (m.update p fun leaf => { leaf with slots := f leaf.slots }).links = m.links := by
    funext q
    rw [links, links, get_update]
    split
    · rw [Option.map_map]
      rfl
    · rfl
  have hnodup := h.nodup
  rw [List.map_append, List.map_cons] at hnodup
  obtain ⟨-, hafter, hapart⟩ := List.nodup_append.mp hnodup
  refine ⟨fun l hl => ?_, ?_, ?_, ?_, ?_⟩
  · obtain hl | hl := List.mem_append.mp hl
    · have hne : p ≠ l.1 := (hapart l.1 (List.mem_map_of_mem hl) p List.mem_cons_self).symm
      rw [Memory.slots, get_update_of_ne hne]
      exact h.slots l (List.mem_append_left _ hl)
    · obtain rfl | hmem := List.mem_cons.mp hl
      · rw [Memory.slots, get_update_self, h.get]
        rfl
      · have hpointer : l.1 ∈ after.map Prod.fst := List.mem_map_of_mem hmem
        have hne : p ≠ l.1 := fun heq => (List.nodup_cons.mp hafter).1 (heq ▸ hpointer)
        rw [Memory.slots, get_update_of_ne hne]
        exact h.slots l (List.mem_append_right _ (List.mem_cons_of_mem _ hmem))
  · rw [hlinks, hpointers]
    exact h.linked
  · rw [hpointers]
    exact h.nodup
  · rw [hpointers]
    exact h.headleaf
  · rw [hpointers]
    exact h.tailleaf

theorem put_spec {t : Traits} {m : Memory K} {before after : List (Leaf K)} {p : Pointer}
    {xs : List (KeyValue K)} (h : m.Chains (before ++ (p, xs) :: after)) (hroom : xs.length < t.leafslotmax)
    (slot : Nat) (kv : KeyValue K) :
    Returns (m.put t p slot kv) fun m' =>
      m'.Chains (before ++ (p, xs.insertIdx slot kv) :: after) ∧ m'.stats = m.stats := by
  rw [put, h.get, Option.bind_eq_bind, Option.bind_some, if_pos hroom, modify_eq (lt_of_get h.get),
    Returns.some_iff]
  exact ⟨h.update (List.insertIdx · slot kv), rfl⟩

section Split

variable {m m' : Memory K} {before after : List (Leaf K)} {p q : Pointer} {xs ys zs : List (KeyValue K)}

theorem Chains.live (h : m.Chains (before ++ after)) {r : Pointer} (hr : r ∈ (before ++ after).map Prod.fst) :
    ∃ leaf, m.get r = some leaf := by
  obtain ⟨l, hl, rfl⟩ := List.mem_map.mp hr
  obtain ⟨leaf, hleaf, -⟩ := Option.map_eq_some_iff.mp (h.slots l hl)
  exact ⟨leaf, hleaf⟩

/-- A new leaf behind another one that has left it some slots. -/
theorem Chains.insert (h : m.Chains (before ++ (p, xs) :: after)) (hq : m.get q = none)
    (hp' : m'.get p = some ⟨(before.map Prod.fst).getLast?, some q, ys⟩)
    (hq' : m'.get q = some ⟨some p, (after.map Prod.fst).head?, zs⟩)
    (hnext : ∀ r ∈ (after.map Prod.fst).head?, m'.get r = (m.get r).map ({ · with prevleaf := some q }))
    (hframe : ∀ r, r ≠ p → r ≠ q → r ∉ (after.map Prod.fst).head? → m'.get r = m.get r)
    (hhead : m'.headleaf = m.headleaf) (htail : m'.tailleaf = (q :: after.map Prod.fst).getLast?) :
    m'.Chains (before ++ (p, ys) :: (q, zs) :: after) := by
  have hne : ∀ l ∈ before ++ (p, xs) :: after, l.1 ≠ q := by
    rintro l hl rfl
    obtain ⟨leaf, hleaf⟩ := h.live (List.mem_map_of_mem hl)
    exact absurd (hleaf.symm.trans hq) (Option.some_ne_none leaf)
  have hpointers : ((before ++ (p, xs) :: after).map Prod.fst) =
      (before.map Prod.fst ++ [p]) ++ after.map Prod.fst := by simp
  have hpointers' : ((before ++ (p, ys) :: (q, zs) :: after).map Prod.fst) =
      (before.map Prod.fst ++ [p]) ++ q :: after.map Prod.fst := by simp
  have hold := h.nodup
  rw [hpointers] at hold
  have hnodup : ((before.map Prod.fst ++ [p]) ++ q :: after.map Prod.fst).Nodup := by
    rw [List.nodup_middle, List.nodup_cons]
    refine ⟨fun hmem => ?_, hold⟩
    rw [← hpointers] at hmem
    obtain ⟨l, hl, heq⟩ := List.mem_map.mp hmem
    exact hne l hl heq
  obtain ⟨hbefore, -, hapart⟩ := List.nodup_append.mp hold
  have hpbefore : ∀ l ∈ before, l.1 ≠ p := fun l hl heq =>
    (List.nodup_append.mp hbefore).2.2 l.1 (List.mem_map_of_mem hl) p List.mem_cons_self heq
  have hother : ∀ l ∈ before ++ after, l.1 ≠ p ∧ l.1 ≠ q := by
    intro l hl
    obtain hl | hl := List.mem_append.mp hl
    · exact ⟨hpbefore l hl, hne l (List.mem_append_left _ hl)⟩
    · refine ⟨fun heq => ?_, hne l (by simp [hl])⟩
      exact hapart p (by simp) l.1 (List.mem_map_of_mem hl) heq.symm
  have hslots : ∀ l ∈ before ++ after, m'.slots l.1 = m.slots l.1 := by
    intro l hl
    obtain ⟨hlp, hlq⟩ := hother l hl
    by_cases hhead : l.1 ∈ (after.map Prod.fst).head?
    · rw [Memory.slots, Memory.slots, hnext l.1 hhead, Option.map_map]
      rfl
    · rw [Memory.slots, Memory.slots, hframe l.1 hlp hlq hhead]
  refine ⟨fun l hl => ?_, ?_, ?_, ?_, ?_⟩
  · have hcases : l ∈ before ++ after ∨ l = (p, ys) ∨ l = (q, zs) := by
      simp only [List.mem_append, List.mem_cons] at hl ⊢
      tauto
    obtain hl | rfl | rfl := hcases
    · rw [hslots l hl]
      apply h.slots
      simp only [List.mem_append, List.mem_cons] at hl ⊢
      tauto
    · rw [Memory.slots, hp']
      rfl
    · rw [Memory.slots, hq']
      rfl
  · rw [hpointers']
    have hlinked := h.linked
    rw [hpointers] at hlinked
    refine hlinked.insert hnodup ?_ (fun r hr => ?_) (fun r hr => ?_) (fun r hr hlast hfirst => ?_)
    · rw [links, hq']
      simp
    · obtain rfl : p = r := by simpa using hr
      rw [links, links, hp', h.get]
      rfl
    · rw [links, links, hnext r hr, Option.map_map, Option.map_map]
      rfl
    · have hrp : r ≠ p := by simpa [eq_comm] using hlast
      have hrq : r ≠ q := by
        rw [← hpointers] at hr
        obtain ⟨l, hl, rfl⟩ := List.mem_map.mp hr
        exact hne l hl
      rw [links, links, hframe r hrp hrq hfirst]
  · rw [hpointers']
    exact hnodup
  · rw [hpointers', hhead, h.headleaf, hpointers]
    simp
  · rw [hpointers', htail, List.getLast?_append_of_ne_nil _ (List.cons_ne_nil _ _)]

theorem splitLeafNode_spec (h : m.Chains (before ++ (p, xs) :: after)) (hlen : 2 ≤ xs.length) :
    Returns (m.splitLeafNode p) fun (k, q, m') =>
      let mid := xs.length / 2
      m'.Chains (before ++ (p, xs.take mid) :: (q, xs.drop mid) :: after) ∧
        maxKey [(p, xs.take mid)] = some k ∧
        m'.stats = { m.stats with leaves := m.stats.leaves + 1 } := by
  obtain ⟨last, hlast⟩ : ∃ last, (xs.take (xs.length / 2)).getLast? = some last := by
    rw [← Option.ne_none_iff_exists', ne_eq, List.getLast?_eq_none_iff, ← ne_eq, ← List.length_pos_iff,
      List.length_take]
    omega
  have hp : p ≠ m.allocateLeaf.1 := ne_allocated h.get
  have hq := get_allocated (m := m)
  have hq' := get_allocateLeaf_self (m := m)
  have hframe : ∀ r, r ≠ m.allocateLeaf.1 → m.allocateLeaf.2.get r = m.get r := fun r => get_allocateLeaf
  have hstats : m.allocateLeaf.2.stats = { m.stats with leaves := m.stats.leaves + 1 } := rfl
  have hhead : m.allocateLeaf.2.headleaf = m.headleaf := rfl
  have htail : m.allocateLeaf.2.tailleaf = m.tailleaf := rfl
  simp only [splitLeafNode, Option.bind_eq_bind, h.get, Option.bind_some]
  generalize m.allocateLeaf.1 = q at hp hq hq' hframe ⊢
  generalize m.allocateLeaf.2 = m₁ at hq' hframe hstats hhead htail ⊢
  have hpget := (hframe p hp).trans h.get
  have hplive := lt_of_get hpget
  have hqlive := lt_of_get hq'
  rw [modify_bind hqlive]
  cases hnext : (after.map Prod.fst).head? with
  | none =>
    obtain rfl : after = [] := by simpa using hnext
    dsimp only
    rw [modify_bind (by simpa using hqlive), modify_bind (by simpa using hplive),
      modify_bind (by simpa using hqlive), hlast, Option.bind_some, Option.pure_def, Returns.some_iff]
    refine ⟨h.insert hq ?_ ?_ (fun r hr => ?_) (fun r hrp hrq hr => ?_) hhead rfl, ?_, hstats⟩
    · simp [hp.symm, hpget]
    · simp [hp, hq']
    · simp at hr
    · simp [hrp.symm, hrq.symm, hframe r hrq]
    · simp [maxKey, hlast]
  | some next =>
    have hnextmem : next ∈ after.map Prod.fst := List.mem_of_mem_head? hnext
    have hpnext : p ≠ next := by
      have hnodup := h.nodup
      rw [List.map_append, List.map_cons] at hnodup
      rintro rfl
      exact (List.nodup_cons.mp (List.nodup_append.mp hnodup).2.1).1 hnextmem
    obtain ⟨leaf, hleaf⟩ := h.live (r := next) (by simp at hnextmem ⊢; tauto)
    have hnextq : next ≠ q := by
      rintro rfl
      exact absurd (hleaf.symm.trans hq) (Option.some_ne_none leaf)
    have hnextlive := lt_of_get ((hframe next hnextq).trans hleaf)
    dsimp only
    rw [modify_bind (by simpa using hnextlive), modify_bind (by simpa using hqlive),
      modify_bind (by simpa using hplive), modify_bind (by simpa using hqlive), hlast, Option.bind_some,
      Option.pure_def, Returns.some_iff]
    refine ⟨h.insert hq ?_ ?_ (fun r hr => ?_) (fun r hrp hrq hr => ?_) hhead ?_, ?_, hstats⟩
    · simp [hp.symm, hpnext.symm, hpget]
    · simp [hp, hnextq, hq', hnext]
    · obtain rfl : next = r := by simpa [hnext] using hr
      simp [hpnext, hnextq.symm, hframe next hnextq]
    · have hrnext : next ≠ r := fun heq => hr (hnext.trans (congrArg some heq))
      simp [hrp.symm, hrq.symm, hrnext, hframe r hrq]
    · change m₁.tailleaf = _
      rw [htail, h.tailleaf]
      obtain ⟨l, after, rfl⟩ := List.exists_cons_of_ne_nil (fun hnil : after = [] => by simp [hnil] at hnextmem)
      simp [List.getLast?_append, List.getLast?_cons]
    · simp [maxKey, hlast]

/-- A new leaf with these slots behind the others. -/
theorem append_spec {ls : List (Leaf K)} (h : m.Chains ls) (xs : List (KeyValue K)) :
    Returns (do
      let m' ← m.allocateLeaf.2.modify m.allocateLeaf.1 ({ · with slots := xs })
      m'.append m.allocateLeaf.1) fun m' =>
      m'.Chains (ls ++ [(m.allocateLeaf.1, xs)]) ∧ m'.stats = { m.stats with leaves := m.stats.leaves + 1 } := by
  have hq := get_allocated (m := m)
  have hq' := get_allocateLeaf_self (m := m)
  have hframe : ∀ r, r ≠ m.allocateLeaf.1 → m.allocateLeaf.2.get r = m.get r := fun r => get_allocateLeaf
  have hstats : m.allocateLeaf.2.stats = { m.stats with leaves := m.stats.leaves + 1 } := rfl
  have hhead : m.allocateLeaf.2.headleaf = m.headleaf := rfl
  have htail : m.allocateLeaf.2.tailleaf = m.tailleaf := rfl
  generalize m.allocateLeaf.1 = q at hq hq' hframe ⊢
  generalize m.allocateLeaf.2 = m₁ at hq' hframe hstats hhead htail ⊢
  have hqlive := lt_of_get hq'
  rw [Option.bind_eq_bind, modify_bind hqlive, append, show (m₁.update q ({ · with slots := xs })).tailleaf = _ from htail]
  obtain rfl | ⟨before, ⟨p, ys⟩, rfl⟩ := ls.eq_nil_or_concat'
  · rw [h.tailleaf]
    refine Returns.some_iff.mpr ⟨.singleton ?_ rfl rfl, hstats⟩
    change (m₁.update q ({ · with slots := xs })).get q = _
    rw [get_update_self, hq']
    rfl
  · have hp : p ≠ q := by
      rintro rfl
      exact absurd (h.get.symm.trans hq) (Option.some_ne_none _)
    have hpget := (hframe p hp).trans h.get
    have hplive := lt_of_get hpget
    have hlast : m.tailleaf = some p := by rw [h.tailleaf]; simp
    rw [hlast]
    dsimp only
    simp only [Option.bind_eq_bind]
    rw [modify_bind (by simpa using hplive), modify_eq (by simpa using hqlive), Option.bind_some,
      Option.pure_def, Returns.some_iff, List.append_assoc]
    refine ⟨h.insert hq ?_ ?_ (fun r hr => ?_) (fun r hrp hrq hr => ?_) hhead rfl, hstats⟩
    · simp [hp.symm, hpget]
    · simp [hp, hq']
    · simp at hr
    · simp [hrp.symm, hrq.symm, hframe r hrq]

end Split

end Memory

end LearnedIndex.BTree
