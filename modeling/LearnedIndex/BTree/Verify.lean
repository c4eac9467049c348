import LearnedIndex.BTree.BulkLoad

/-! `verify`: `none` is an assertion that fails. -/

namespace LearnedIndex.BTree

open Util SortedList

variable {K : Type} [LinearOrder K]

section Defs

variable (t : Traits) (m : Memory K)

/-- Two leaves that are next to each other. -/
def verifyAdjacent (leafa leafb : Pointer) : Option Unit := do
  let a ← m.get leafa
  guard (a.nextleaf = some leafb)
  let b ← m.get leafb
  guard (some leafa = b.prevleaf)

/-- The links between the leaves of two children. -/
def verifyLinks : (level : Nat) → Node K level → Node K level → Option Unit
  | 0, leafa, leafb => verifyAdjacent m leafa leafb
  | 1, parenta, parentb => do
    let parenta : InnerNode K Pointer := parenta
    let parentb : InnerNode K Pointer := parentb
    verifyAdjacent m (← parenta.childid[parenta.slotkey.length]?) (← parentb.childid[0]?)
  | _ + 2, _, _ => some ()

/-- The loop over the children, with the key in front of them. -/
def verifyChildren {N : Type} (verifyNode : N → Stats → Option (K × K × Stats)) (verifyLinks : N → N → Option Unit) :
    Option K → List K → List N → Stats → Option (K × K × Stats)
  | prev, [], [subnode], vstats => do
    let (subminkey, submaxkey, vstats) ← verifyNode subnode vstats
    guard (∀ k ∈ prev, k ≤ subminkey)
    return (subminkey, submaxkey, vstats)
  | prev, key :: slotkey, subnode :: next :: childid, vstats => do
    let (subminkey, submaxkey, vstats) ← verifyNode subnode vstats
    guard (∀ k ∈ prev, k ≤ subminkey)
    guard (key = submaxkey)
    verifyLinks subnode next
    let (_, maxkey, vstats) ← verifyChildren verifyNode verifyLinks (some key) slotkey (next :: childid) vstats
    return (subminkey, maxkey, vstats)
  | _, _, _, _ => none

/-- `verify_node`, with the smallest and the largest key below the node. -/
def verifyNode : (root : Bool) → (level : Nat) → Node K level → Stats → Option (K × K × Stats)
  | root, 0, p, vstats => do
    let leaf ← m.get p
    guard (root ∨ t.minleafslots ≤ leaf.slots.length)
    guard (0 < leaf.slots.length)
    guard ((keys leaf.slots).IsChain (· ≤ ·))
    let first ← leaf.slots.head?
    let last ← leaf.slots.getLast?
    return (first.key, last.key,
      { vstats with itemcount := vstats.itemcount + leaf.slots.length, leaves := vstats.leaves + 1 })
  | root, level + 1, inner, vstats => do
    let inner : InnerNode K (Node K level) := inner
    guard (root ∨ t.mininnerslots ≤ inner.slotkey.length)
    guard (0 < inner.slotkey.length)
    guard (inner.slotkey.IsChain (· ≤ ·))
    verifyChildren (verifyNode false level) (verifyLinks m level) none inner.slotkey inner.childid
      { vstats with innernodes := vstats.innernodes + 1 }

/-- The body of the loop in `verify_leaflinks`. -/
def verifyLeaf : Option Pointer × Nat → Option (Option Pointer × Nat)
  | (n, testcount) => do
    let p ← n
    let leaf ← m.get p
    let last ← leaf.slots.getLast?
    guard ((keys leaf.slots).IsChain (· ≤ ·))
    match leaf.nextleaf with
    | some q =>
      let next ← m.get q
      let first ← next.slots.head?
      guard (last.key ≤ first.key)
      guard (some p = next.prevleaf)
    | none => guard (m.tailleaf = some p)
    return (leaf.nextleaf, testcount + leaf.slots.length)

/-- `verify_leaflinks` -/
def verifyLeaflinks : Option Unit := do
  let head ← m.get (← m.headleaf)
  guard (head.prevleaf = none)
  let (_, testcount) ← Loop.whileDo (fun (n, _) => some n.isSome) (verifyLeaf m) (m.headleaf, 0)
  guard (testcount = m.stats.itemcount)

def Btree.verify (tree : Btree K) : Option Unit :=
  match tree.root with
  | none => some ()
  | some root => do
    let (_, _, vstats) ← verifyNode t tree.memory true root.1 root.2 ⟨0, 0, 0⟩
    guard (vstats = tree.memory.stats)
    verifyLeaflinks tree.memory

end Defs

variable {t : Traits} {m : Memory K} {level : Nat} {before ls ls' after : List (Leaf K)}

theorem guard_eq {p : Prop} [Decidable p] (h : p) : (guard p : Option Unit) = some () := if_pos h

omit [LinearOrder K] in
theorem verifyAdjacent_eq {p q : Pointer} {xs ys : List (KeyValue K)}
    (h : m.Chains (before ++ (p, xs) :: (q, ys) :: after)) : verifyAdjacent m p q = some () := by
  have hbehind : m.Chains ((before ++ [(p, xs)]) ++ (q, ys) :: after) := by simpa using h
  rw [verifyAdjacent, h.get, Option.bind_eq_bind, Option.bind_some, hbehind.get]
  simp

omit [LinearOrder K] in
theorem Holds.first_leaf {root : Bool} {inner : InnerNode K Pointer} (h : Holds t root 1 inner ls) :
    ∃ p xs rest, ls = (p, xs) :: rest ∧ inner.childid[0]? = some p := by
  obtain ⟨lss, rfl, hdivides, hchildren, -⟩ := h
  obtain ⟨l, lss, rfl⟩ := List.exists_cons_of_length_eq_add_one hdivides.length
  obtain ⟨p, ps, ⟨xs, rfl, -⟩, -, hps⟩ := List.forall₂_cons_right_iff.mp hchildren
  exact ⟨p, xs, lss.flatten, rfl, congrArg (fun ps : List Pointer => ps[0]?) hps⟩

omit [LinearOrder K] in
theorem Holds.last_leaf {root : Bool} {inner : InnerNode K Pointer} (h : Holds t root 1 inner ls) :
    ∃ p xs init, ls = init ++ [(p, xs)] ∧ inner.childid[inner.slotkey.length]? = some p := by
  obtain ⟨lss, rfl, hdivides, hchildren, -⟩ := h
  have hlen := hdivides.length
  obtain rfl | ⟨lss, l, rfl⟩ := lss.eq_nil_or_concat'
  · cases hlen
  rw [List.length_append, List.length_singleton, Nat.add_right_cancel_iff] at hlen
  obtain ⟨ps, p, rest, hps, hfront, ⟨xs, rfl, -⟩, hrest⟩ := forall₂_split hchildren
  obtain rfl := List.forall₂_nil_right_iff.mp hrest
  have hslot : inner.slotkey.length = ps.length := hlen.symm.trans hfront.length_eq.symm
  refine ⟨p, xs, lss.flatten, by simp; rfl, ?_⟩
  rw [hslot]
  exact (congrArg (fun qs : List Pointer => qs[ps.length]?) hps).trans List.getElem?_concat_length

omit [LinearOrder K] in
theorem verifyLinks_eq {a b : Node K level} (ha : Holds t false level a ls) (hb : Holds t false level b ls')
    (h : m.Chains (before ++ (ls ++ ls') ++ after)) : verifyLinks m level a b = some () := by
  match level with
  | 0 =>
    change Pointer at a b
    obtain ⟨xs, rfl, -⟩ := ha
    obtain ⟨ys, rfl, -⟩ := hb
    have hleaves : before ++ ([(a, xs)] ++ [(b, ys)]) ++ after = before ++ (a, xs) :: (b, ys) :: after := by simp
    exact verifyAdjacent_eq ((congrArg m.Chains hleaves).mp h)
  | 1 =>
    rw [verifyLinks]
    change InnerNode K Pointer at a b
    obtain ⟨p, xs, init, rfl, hp⟩ := ha.last_leaf
    obtain ⟨q, ys, rest, rfl, hq⟩ := hb.first_leaf
    have hleaves : m.Chains ((before ++ init) ++ (p, xs) :: (q, ys) :: (rest ++ after)) := by simpa using h
    rw [hp, hq]
    exact verifyAdjacent_eq hleaves
  | level + 2 => rfl

/-- What `verify_node` finds below a node with these leaves and so many inner nodes. -/
structure Verified (ls : List (Leaf K)) (innernodes : Nat) (vstats : Stats) (found : K × K × Stats) : Prop where
  minkey : (items ls).head?.map KeyValue.key = some found.1
  maxkey : maxKey ls = some found.2.1
  vstats : found.2.2 = ⟨vstats.itemcount + (items ls).length, vstats.leaves + ls.length, vstats.innernodes + innernodes⟩

omit [LinearOrder K] in
theorem head?_items_append {x : K} (h : (items ls).head?.map KeyValue.key = some x) :
    (items (ls ++ ls')).head?.map KeyValue.key = some x := by
  obtain ⟨y, hy, rfl⟩ := Option.map_eq_some_iff.mp h
  rw [items_append, List.head?_append, hy]
  rfl

theorem verifyChildren_spec
    (hnode : ∀ {c : Node K level} {before l after : List (Leaf K)} (vstats : Stats), Holds t false level c l →
      m.Chains (before ++ l ++ after) → Sorted KeyValue.key (items l) →
      Returns (verifyNode t m false level c vstats) (Verified l (innernodes level c) vstats))
    {ks : List K} {lss : List (List (Leaf K))} {cs : List (Node K level)} (hdivides : Divides ks lss)
    (hchildren : List.Forall₂ (Holds t false level) cs lss) (hchains : m.Chains (before ++ lss.flatten ++ after))
    (hsorted : Sorted KeyValue.key (items lss.flatten)) {prev : Option K}
    (hprev : ∀ k ∈ prev, ∀ x ∈ items lss.flatten, k ≤ x.key) (vstats : Stats) :
    Returns (verifyChildren (verifyNode t m false level) (verifyLinks m level) prev ks cs vstats)
      (Verified lss.flatten (cs.map (innernodes level)).sum vstats) := by
  induction hdivides generalizing cs before prev vstats with
  | last ls =>
    obtain ⟨c, cs, hc, hcs, rfl⟩ := List.forall₂_cons_right_iff.mp hchildren
    obtain rfl := List.forall₂_nil_right_iff.mp hcs
    rw [List.flatten_singleton] at hchains hsorted hprev ⊢
    rw [verifyChildren]
    apply (hnode vstats hc hchains hsorted).bind
    rintro ⟨subminkey, submaxkey, vstats'⟩ h
    obtain ⟨x, hx, rfl⟩ := Option.map_eq_some_iff.mp h.minkey
    have hmin := guard_eq fun k hk => hprev k hk x (List.mem_of_mem_head? hx)
    dsimp only
    rw [hmin]
    exact Returns.some_iff.mpr ⟨h.minkey, h.maxkey, h.vstats⟩
  | @cons k ks ls lss hk hdivides ih =>
    obtain ⟨c, cs, hc, hcs, rfl⟩ := List.forall₂_cons_right_iff.mp hchildren
    obtain ⟨ls', lss, rfl⟩ := List.exists_cons_of_length_eq_add_one hdivides.length
    obtain ⟨next, cs, hnext, hrest, rfl⟩ := List.forall₂_cons_right_iff.mp hcs
    rw [List.flatten_cons] at hchains hsorted hprev ⊢
    rw [items_append] at hsorted hprev
    obtain ⟨hfirst, hbehind, hcross⟩ := List.pairwise_append.mp hsorted
    rw [verifyChildren]
    have hchains₁ : m.Chains (before ++ ls ++ ((ls' :: lss).flatten ++ after)) := by simpa using hchains
    apply (hnode vstats hc hchains₁ hfirst).bind
    rintro ⟨subminkey, submaxkey, vstats'⟩ h
    obtain ⟨x, hx, rfl⟩ := Option.map_eq_some_iff.mp h.minkey
    have hmin := guard_eq fun k hk => hprev k hk x (List.mem_append_left _ (List.mem_of_mem_head? hx))
    have hmax := guard_eq (Option.some.inj (hk.symm.trans h.maxkey))
    have hchains₂ : m.Chains (before ++ (ls ++ ls') ++ (lss.flatten ++ after)) := by simpa using hchains
    have hchains₃ : m.Chains ((before ++ ls) ++ (ls' :: lss).flatten ++ after) := by simpa using hchains
    dsimp only
    rw [hmin, hmax, verifyLinks_eq hc hnext hchains₂]
    have hprev' : ∀ k' ∈ some k, ∀ x ∈ items (ls' :: lss).flatten, k' ≤ x.key := by
      rintro k' ⟨⟩ x hx
      obtain ⟨y, hy, rfl⟩ := Option.map_eq_some_iff.mp hk
      exact hcross y (List.mem_of_getLast? hy) x hx
    apply (ih (.cons hnext hrest) hchains₃ hbehind hprev' vstats').bind
    rintro ⟨_, maxkey, vstats''⟩ h'
    have hne := items_ne_nil h'.maxkey
    have hstats := h.vstats
    have hstats' := h'.vstats
    dsimp only at hstats hstats'
    refine Returns.some_iff.mpr ⟨head?_items_append h.minkey, ?_, ?_⟩
    · rw [maxKey_append hne]
      exact h'.maxkey
    · rw [hstats', hstats, items_append, List.length_append, List.length_append]
      simp only [List.map_cons, List.sum_cons, Nat.add_assoc]

theorem verifyNode_spec {root : Bool} {node : Node K level} (h : Holds t root level node ls)
    (hchains : m.Chains (before ++ ls ++ after)) (hsorted : Sorted KeyValue.key (items ls)) (vstats : Stats) :
    Returns (verifyNode t m root level node vstats) (Verified ls (innernodes level node) vstats) := by
  induction level generalizing root before ls after vstats with
  | zero =>
    rw [verifyNode]
    change Pointer at node
    obtain ⟨xs, rfl, hfilled⟩ := h
    have hleaf : m.Chains (before ++ (node, xs) :: after) :=
      (congrArg m.Chains (List.append_cons before (node, xs) after)).mpr hchains
    have hpos := hfilled.pos t.minleafslots_pos
    have hmin : root = true ∨ t.minleafslots ≤ xs.length := by
      have := hfilled.1
      cases root <;> simp_all
    have hxs : Sorted KeyValue.key (xs ++ []) := hsorted
    rw [List.append_nil] at hxs
    have hchain : (keys xs).IsChain (· ≤ ·) := List.isChain_iff_pairwise.mpr (List.pairwise_map.mpr hxs)
    obtain ⟨first, hfirst⟩ := Option.ne_none_iff_exists'.mp (mt List.head?_eq_none_iff.mp (List.ne_nil_of_length_pos hpos))
    obtain ⟨last, hlast⟩ := Option.ne_none_iff_exists'.mp (mt List.getLast?_eq_none_iff.mp (List.ne_nil_of_length_pos hpos))
    have hitems : items [(node, xs)] = xs := List.append_nil xs
    simp only [hleaf.get, Option.bind_eq_bind, Option.bind_some, guard_eq hmin, guard_eq hpos, guard_eq hchain,
      hfirst, hlast]
    have hverified : Verified [(node, xs)] 0 vstats (first.key, last.key,
        { vstats with itemcount := vstats.itemcount + xs.length, leaves := vstats.leaves + 1 }) := by
      refine ⟨?_, ?_, ?_⟩
      · rw [hitems, hfirst]
        rfl
      · rw [maxKey, hitems, hlast]
        rfl
      · rw [hitems]
        rfl
    exact Returns.some_iff.mpr hverified
  | succ level ih =>
    rw [verifyNode]
    obtain ⟨lss, rfl, hdivides, hchildren, hfilled⟩ := h
    change InnerNode K (Node K level) at node
    have hpos := hfilled.pos t.mininnerslots_pos
    have hmin : root = true ∨ t.mininnerslots ≤ node.slotkey.length := by
      have := hfilled.1
      cases root <;> simp_all
    have hchain : node.slotkey.IsChain (· ≤ ·) := List.isChain_iff_pairwise.mpr (hdivides.pairwise hsorted)
    simp only [Option.bind_eq_bind, Option.bind_some, guard_eq hmin, guard_eq hpos, guard_eq hchain]
    apply (verifyChildren_spec (fun vstats hc hchains hsorted => ih hc hchains hsorted vstats) hdivides hchildren
      hchains hsorted (fun k hk => by cases hk) _).mono
    rintro found ⟨hminkey, hmaxkey, hstats⟩
    refine ⟨hminkey, hmaxkey, hstats.trans ?_⟩
    rw [Nat.add_assoc, Nat.add_comm 1]
    rfl

theorem verifyLeaf_eq {p : Pointer} {xs : List (KeyValue K)} (hchains : m.Chains (before ++ (p, xs) :: after))
    (hls : ∀ l ∈ before ++ (p, xs) :: after, l.2 ≠ [])
    (hsorted : Sorted KeyValue.key (items (before ++ (p, xs) :: after))) (testcount : Nat) :
    verifyLeaf m (some p, testcount) = some ((after.map Prod.fst).head?, testcount + xs.length) := by
  rw [items_append, items_cons] at hsorted
  obtain ⟨hxs, -, hcross⟩ := List.pairwise_append.mp (List.pairwise_append.mp hsorted).2.1
  have hchain : (keys xs).IsChain (· ≤ ·) := List.isChain_iff_pairwise.mpr (List.pairwise_map.mpr hxs)
  have hne : xs ≠ [] := hls (p, xs) (by simp)
  obtain ⟨last, hlast⟩ := Option.ne_none_iff_exists'.mp (mt List.getLast?_eq_none_iff.mp hne)
  simp only [verifyLeaf, Option.bind_eq_bind, Option.bind_some, hchains.get, hlast, guard_eq hchain]
  cases after with
  | nil =>
    have htail : m.tailleaf = some p := by
      rw [hchains.tailleaf]
      simp
    simp [htail, guard_eq]
  | cons l after =>
    obtain ⟨q, ys⟩ := l
    have hnext : m.Chains ((before ++ [(p, xs)]) ++ (q, ys) :: after) := by simpa using hchains
    obtain ⟨first, hfirst⟩ := Option.ne_none_iff_exists'.mp (mt List.head?_eq_none_iff.mp (hls (q, ys) (by simp)))
    have hle : last.key ≤ first.key :=
      hcross last (List.mem_of_getLast? hlast) first (List.mem_append_left _ (List.mem_of_mem_head? hfirst))
    simp [hnext.get, hfirst, guard_eq hle]

theorem verifyLeaflinks_eq (hchains : m.Chains ls) (hne : ls ≠ []) (hls : ∀ l ∈ ls, l.2 ≠ [])
    (hsorted : Sorted KeyValue.key (items ls)) (hcount : m.stats.itemcount = (items ls).length) :
    verifyLeaflinks m = some () := by
  have hloop : Returns (Loop.whileDo (fun (n, _) => some n.isSome) (verifyLeaf m) (m.headleaf, 0))
      fun (_, testcount) => testcount = (items ls).length := by
    apply Returns.whileDo (I := fun (n, testcount) => ∃ done rest, ls = done ++ rest ∧
      n = (rest.map Prod.fst).head? ∧ testcount = (items done).length) fun (_, testcount) => (items ls).length - testcount
    · rintro ⟨n, testcount⟩ ⟨done, rest, rfl, rfl, rfl⟩
      apply Returns.some_iff.mpr
      cases rest with
      | nil => simp
      | cons l rest =>
        obtain ⟨p, xs⟩ := l
        have hpos : 0 < xs.length := List.length_pos_iff.mpr (hls (p, xs) (by simp))
        change Returns (verifyLeaf m (some p, (items done).length)) _
        rw [verifyLeaf_eq hchains hls hsorted]
        refine Returns.some_iff.mpr ⟨⟨done ++ [(p, xs)], rest, by simp, rfl, by simp⟩, ?_⟩
        simp only [items_append, items_cons, List.length_append]
        omega
    · exact ⟨[], ls, rfl, hchains.headleaf, rfl⟩
  obtain ⟨⟨n, testcount⟩, hrun, rfl⟩ := hloop
  obtain ⟨⟨p, xs⟩, ls, rfl⟩ := List.exists_cons_of_ne_nil hne
  have hhead : m.Chains ([] ++ (p, xs) :: ls) := hchains
  rw [verifyLeaflinks, hrun, hchains.headleaf]
  simp only [Option.bind_eq_bind, List.map_cons, List.head?_cons, Option.bind_some, hhead.get, guard_eq hcount.symm]
  rfl

namespace Btree

variable {tree : Btree K} {xs : List (KeyValue K)}

/-- All assertions hold. -/
theorem Stores.verify (h : tree.Stores t xs) : tree.verify t = some () := by
  obtain ⟨ls, h, rfl⟩ := h
  have hls := h.root
  unfold Btree.verify
  cases hroot : tree.root with
  | none => rfl
  | some root =>
    rw [hroot] at hls
    have hchains : tree.memory.Chains ([] ++ ls ++ []) := by simpa using h.chains
    obtain ⟨⟨minkey, maxkey, vstats⟩, hnode, hfound⟩ := verifyNode_spec hls hchains h.sorted ⟨0, 0, 0⟩
    have hstats : vstats = tree.memory.stats := by
      have hinner := h.innernodes
      rw [hroot] at hinner
      dsimp only at hinner
      rw [show vstats = _ from hfound.vstats]
      simp only [Nat.zero_add]
      rw [← h.itemcount, ← h.leaves, ← hinner]
    dsimp only
    rw [hnode, Option.bind_eq_bind, Option.bind_some]
    dsimp only
    rw [guard_eq hstats]
    exact verifyLeaflinks_eq h.chains hls.ne_nil.1 hls.ne_nil.2 h.sorted h.itemcount

end Btree

end LearnedIndex.BTree
