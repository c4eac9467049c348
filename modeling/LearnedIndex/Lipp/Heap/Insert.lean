import LearnedIndex.Lipp.Heap.Rebuild
import LearnedIndex.Lipp.Operations

/-! Lookups between the writes of an insertion: which trees and keys they are safe for. -/

namespace LearnedIndex.Lipp.Heap

open Hybrid

section Insert

variable {K : Type} [LinearOrder K] {fit : Fit K} {alloc : Allocator K} {mem : Memory K} {p : Pointer}
  {t : Tree K} {foot : Set Pointer} {kvs : List (KeyValue K)} {kv : KeyValue K} {key : K} {fuel : Nat}

omit [LinearOrder K] in
theorem Trail.live {path : List Pointer} (h : Trail mem.nodes key p path) :
    ∀ q ∈ path, ∃ c, mem.nodes q = some c := by
  induction h with
  | @last p c live =>
    intro q hq
    obtain rfl := List.mem_singleton.mp hq
    exact ⟨c, live⟩
  | @child p q c path live hchild hq h ih => exact List.forall_mem_cons.mpr ⟨⟨c, live⟩, ih⟩

omit [LinearOrder K] in
/-- Adding nothing to a counter writes what is there. -/
theorem addNothing_ends {I : Memory K → Prop} {path : List Pointer} (hlive : ∀ q ∈ path, ∃ c, mem.nodes q = some c)
    (hI : I mem) :
    (path.forM fun q => store q (Cell.addInsertToData false)).Ends mem I fun _ mem' => mem' = mem := by
  apply Traced.Ends.forM (J := fun mem' => mem' = mem) rfl
  intro q hq mem' hmem'
  rw [hmem']
  obtain ⟨c, hc⟩ := hlive q hq
  have hwrites := store_writes hc (Cell.addInsertToData false)
  have hsame : mem.set q (some (c.addInsertToData false)) = mem := Memory.set_eq_self hc
  rw [hsame] at hwrites
  exact hwrites.toEnds hI rfl

/-- Nothing is lost on a way that is quiet. -/
theorem insertTree_quiet (hreaches : Reaches kv.key (fun view => view = .empty) maxDepth t)
    (hquiet : Quiet kv.key t) (hrep : Represents mem.nodes p t foot) (ht : Holds t kvs) :
    (insertTree fit alloc fuel p kv).Ends mem mem.Extends fun root mem' => root = p ∧ mem.Extends mem' := by
  unfold insertTree
  apply (insertDown_opens hreaches hrep ht).bind
  rintro ⟨path, insertToData⟩ mem' ⟨hdata, hdown⟩
  obtain rfl : insertToData = false := hdata
  apply (addNothing_ends hdown.trail.live hdown.kept).bind
  rintro - _ rfl
  apply (rebuildPath_reads hdown.trail (hdown.quiet.mp hquiet)).ends
  exact .pure ⟨rfl, hdown.kept⟩

/-- On a way that is not quiet, the first node to be rebuilt loses a key. -/
theorem insertTree_rebuilds (hreaches : Reaches kv.key (fun view => view = .empty) maxDepth t)
    (hquiet : ¬Quiet kv.key t) (hrep : Represents mem.nodes p t foot) (ht : Holds t kvs)
    (hfresh : ∀ x ∈ kvs, x.key ≠ kv.key) :
    (insertTree fit alloc (fuel + 1) p kv).Passes mem fun mem' => ∃ x ∈ kvs, mem'.root = mem.root ∧
      ∀ fuel value, find mem' x.key fuel p ≠ .found value := by
  unfold insertTree
  apply (insertDown_opens hreaches hrep ht).passes
  rintro ⟨path, insertToData⟩ mem' ⟨hdata, hdown⟩
  obtain rfl : insertToData = false := hdata
  obtain ⟨t', pathSize, hrun, hrep'⟩ := hdown.tree
  -- The descent on trees says which pairs the tree has now.
  have hyields : (contract fit).Yields (Lipp.insertDown fit kv maxDepth t) (Inserted kv kvs t) :=
    insertDown_yields hfresh maxDepth ht
  have hinserted := hyields [] fun _ hn => absurd hn List.not_mem_nil
  rw [hrun []] at hinserted
  obtain ⟨kvs', ht', hperm⟩ := hinserted.1.holds
  apply (addNothing_ends (I := fun _ => True) hdown.trail.live trivial).passes
  rintro - _ rfl
  obtain ⟨x, hx, hne, hpasses⟩ := rebuildPath_loses hdown.trail hrep' ht' (mt hdown.quiet.mpr hquiet)
  apply Traced.Passes.bind
  apply hpasses.mono
  intro mem'' hloses
  have hold : x ∈ kvs := List.mem_of_ne_of_mem (fun heq => hne (congrArg KeyValue.key heq)) (hperm.subset hx)
  exact ⟨x, hold, hloses.root.trans hdown.kept.root, hloses.lost⟩

theorem insertTree_meets (hreaches : Reaches kv.key (fun view => ∃ kv', view = .data kv') maxDepth t)
    (hrep : Represents mem.nodes p t foot) (ht : Holds t kvs) :
    (insertTree fit alloc fuel p kv).Passes mem fun mem' => ∃ x ∈ kvs, mem'.root = mem.root ∧
      ∀ fuel value, find mem' x.key fuel p ≠ .found value := by
  obtain ⟨x, hx, hpasses⟩ := insertDown_meets hreaches hrep ht
  unfold insertTree
  apply Traced.Passes.bind
  exact hpasses.mono fun mem' hloses => ⟨x, hx, hloses.root, hloses.lost⟩

/-- The insertion may pass through memories that hide a key. -/
theorem insert_hides (h : (insertTree fit alloc fuel mem.root kv).Passes mem fun mem' => ∃ x ∈ kvs,
      mem'.root = mem.root ∧ ∀ fuel value, find mem' x.key fuel mem.root ≠ .found value) :
    ¬∀ mem' ∈ (insert fit alloc fuel kv).states mem, mem'.Readable kvs := by
  have hpasses : (insert fit alloc fuel kv).Passes mem fun mem' => ∃ x ∈ kvs,
      mem'.root = mem.root ∧ ∀ fuel value, find mem' x.key fuel mem.root ≠ .found value := by
    unfold insert
    apply (Traced.Reads.get mem).passes
    exact h.bind
  obtain ⟨mem', hmem', x, hx, hroot, hlost⟩ := hpasses
  intro hreadable
  obtain ⟨fuel, hfound⟩ := (hreadable mem' (List.mem_cons_of_mem _ hmem')).finds x hx
  rw [hroot] at hfound
  exact hlost fuel x.value hfound

/-- The insertion passes only through memories that extend the one it starts from. -/
theorem insert_always_deep (hpath : Path kv.key (maxDepth + 1) t) (hrep : Represents mem.nodes mem.root t foot)
    (ht : Holds t kvs) : (insert fit alloc fuel kv).Always mem mem.Extends := by
  have hdown : (insertTree fit alloc fuel mem.root kv).Exits mem mem.Extends := by
    unfold insertTree
    exact (insertDown_deep hpath hrep ht).bind
  unfold insert
  exact ((Traced.Reads.get mem).exits hdown.bind).always

theorem insert_always_quiet (hreaches : Reaches kv.key (fun view => view = .empty) maxDepth t)
    (hquiet : Quiet kv.key t) (hrep : Represents mem.nodes mem.root t foot) (ht : Holds t kvs) :
    (insert fit alloc fuel kv).Always mem mem.Extends := by
  have hends : (insert fit alloc fuel kv).Ends mem mem.Extends fun _ _ => True := by
    unfold insert
    apply (Traced.Reads.get mem).ends
    apply (insertTree_quiet hreaches hquiet hrep ht).bind
    rintro _ mem' ⟨rfl, hext⟩
    exact (Traced.Writes.write _ _).toEnds ⟨rfl, hext.pendingTwo, hext.nodes⟩ trivial
  exact hends.always

/-- Between the writes of an insertion, no lookup strays and all keys of the tree are found, if
and only if the key comes to too deep a node, or to an empty item with no rebuild on the way. -/
theorem insert_readable_iff (fit : Fit K) (alloc : Allocator K) (fuel : Nat) (hmem : mem.WellFormed t kvs)
    (hfresh : ∀ x ∈ kvs, x.key ≠ kv.key) :
    (∀ mem' ∈ (insert fit alloc (fuel + 1) kv).states mem, mem'.Readable kvs) ↔
      Path kv.key (maxDepth + 1) t ∨ Quiet kv.key t := by
  have ht := hmem.holds
  obtain ⟨foot, hrep, -⟩ := hmem.represents
  have hsafe : (insert fit alloc (fuel + 1) kv).Always mem mem.Extends →
      ∀ mem' ∈ (insert fit alloc (fuel + 1) kv).states mem, mem'.Readable kvs := by
    intro halways
    rw [Traced.states, List.forall_mem_cons]
    exact ⟨(Memory.Extends.refl mem).readable hmem, fun mem' h => (halways mem' h).readable hmem⟩
  obtain hpath | hreaches | hreaches := path_or_reaches maxDepth ht
  · exact iff_of_true (hsafe (insert_always_deep hpath hrep ht)) (.inl hpath)
  · have hshallow := hreaches.not_path fun t hview => nomatch hview
    by_cases hquiet : Quiet kv.key t
    · exact iff_of_true (hsafe (insert_always_quiet hreaches hquiet hrep ht)) (.inr hquiet)
    · exact iff_of_false (insert_hides (insertTree_rebuilds hreaches hquiet hrep ht hfresh))
        (not_or.mpr ⟨hshallow, hquiet⟩)
  · have hshallow := hreaches.not_path fun t ⟨kv', hview⟩ => nomatch hview
    exact iff_of_false (insert_hides (insertTree_meets hreaches hrep ht))
      (not_or.mpr ⟨hshallow, fun hquiet => hquiet.not_reaches_data hreaches⟩)

end Insert

section Leaf

variable {K : Type}

def Comp.ofItem : Item K (Tree K) → Comp K
  | .data key value => ⟨.key key, some value⟩
  | _ => .uninit

/-- A node without children in memory. -/
def Cell.leaf (n : Node K (Tree K)) : Cell K where
  isTwo := n.isTwo
  buildSize := n.buildSize
  size := n.size
  fixed := n.fixed
  numInserts := n.numInserts
  numInsertToData := n.numInsertToData
  numItems := n.numItems
  model := n.model
  items := some (n.items.map .ofItem)
  noneBitmap := some n.noneBitmap
  childBitmap := some n.childBitmap

/-- A memory with no other node. -/
def Memory.leaf (n : Node K (Tree K)) : Memory K where
  nodes p := if p = 0 then some (.leaf n) else none
  root := 0
  pendingTwo := []

theorem leaf_stands (n : Node K (Tree K)) : (Cell.leaf n).Stands n where
  isTwo := rfl
  buildSize := rfl
  size := rfl
  fixed := rfl
  numInserts := rfl
  numInsertToData := rfl
  numItems := rfl
  model := rfl
  noneBitmap := rfl
  childBitmap := rfl
  items := ⟨_, rfl, List.length_map _⟩
  data i kv hview := by
    have hitem : (Cell.leaf n).item i = (n.items[i]?).map .ofItem := List.getElem?_map
    rw [Cell.data, hitem, (Node.view_eq_data.mp hview).2.2]
    rfl

theorem leaf_wellFormed [LinearOrder K] {n : Node K (Tree K)} {kvs : List (KeyValue K)}
    (hchild : ∀ i, n.isChild i = false) (ht : Holds (.node n) kvs) : (Memory.leaf n).WellFormed (.node n) kvs where
  represents := by
    have hnot : ∀ i t, n.view i ≠ .child t := by
      intro i t hview
      exact absurd ((hchild i).symm.trans (Node.view_eq_child.mp hview).2.1) Bool.false_ne_true
    have hapart : Apart 0 (fun _ => ∅) {0} :=
      ⟨rfl, fun _ => Set.empty_subset _, fun _ => Set.notMem_empty 0, fun _ _ _ q hq => absurd hq (Set.notMem_empty q)⟩
    have hnext : ∀ i t, n.view i = .child t → (Cell.leaf n).child i = some 0 :=
      fun i t hview => absurd hview (hnot i t)
    refine ⟨{0}, ?_, fun p hp => List.not_mem_nil⟩
    exact .node rfl (leaf_stands n) hnext (fun i t hview => absurd hview (hnot i t)) hapart
  holds := ht

/-- An allocator that hands out the first pointer that is free. -/
def firstFree (limit : Nat) : Allocator K where
  allocate mem := (List.range limit).find? fun p => (mem.nodes p).isNone
  fresh h := by simpa using List.find?_some h

end Leaf

section Examples

/-- What `Build` leaves of a list of pairs. -/
theorem holds_of_build {data : List (KeyValue Nat)} {n : Node Nat (Tree Nat)} {pool : Pool Nat}
    (hdata : Ascending data) (hbuild : LIPP.build plainFit .new data = .returns ⟨.node n, pool⟩) :
    Holds (.node n) data := by
  have hinv : LIPP.Ends plainFit (LIPP.Inv · data) (LIPP.build plainFit .new data) := LIPP.inv_new.build hdata
  rw [hbuild] at hinv
  obtain ⟨pairs, hpairs, hperm⟩ := hinv.holds
  rwa [hpairs.ascending.eq_of_perm hdata hperm] at hpairs

/-- The root over three pairs. -/
def threeKeys : Node Nat (Tree Nat) :=
  (((bulkNode 3 id).place 3 ⟨3, 30⟩).place 2 ⟨2, 20⟩).place 1 ⟨1, 10⟩

theorem build_threeKeys :
    LIPP.build plainFit .new [⟨1, 10⟩, ⟨2, 20⟩, ⟨3, 30⟩] = .returns ⟨.node threeKeys, []⟩ := by
  with_unfolding_all rfl

theorem threeKeys_wellFormed :
    (Memory.leaf threeKeys).WellFormed (.node threeKeys) [⟨1, 10⟩, ⟨2, 20⟩, ⟨3, 30⟩] :=
  leaf_wellFormed (Bitmap.get_replicate_zero _) (holds_of_build (by simp [Ascending]) build_threeKeys)

/-- The key `9` goes to an empty item. -/
theorem insert_readable_iff_empty_item : Quiet 9 (.node threeKeys) ∧
    ∀ mem ∈ (insert plainFit (firstFree 8) 1 ⟨9, 90⟩).states (Memory.leaf threeKeys),
      mem.Readable [⟨1, 10⟩, ⟨2, 20⟩, ⟨3, 30⟩] := by
  have hempty : threeKeys.isNone 9 = true ∧ threeKeys.isChild 9 = false := by decide
  have hquiet : Quiet 9 (.node threeKeys) := .last (Node.view_eq_empty.mpr hempty) (by decide)
  have hfresh : ∀ x ∈ [⟨1, 10⟩, ⟨2, 20⟩, ⟨3, 30⟩], (x : KeyValue Nat).key ≠ 9 := by decide
  exact ⟨hquiet, (insert_readable_iff plainFit (firstFree 8) 0 threeKeys_wellFormed hfresh).mpr (.inr hquiet)⟩

/-- The root over one pair: it has one item. -/
def oneKey : Node Nat (Tree Nat) := (Node.count buildTreeNone).place 0 ⟨1, 10⟩

theorem oneKey_wellFormed : (Memory.leaf oneKey).WellFormed (.node oneKey) [⟨1, 10⟩] :=
  leaf_wellFormed (Bitmap.get_replicate_zero 1)
    (holds_of_build (List.pairwise_singleton _ _) (LIPP.build_single ⟨1, 10⟩))

/-- The second key sets the bit of a child before there is one. -/
theorem insert_hides_key : (Memory.leaf oneKey).WellFormed (.node oneKey) [⟨1, 10⟩] ∧
    ¬∀ mem ∈ (insert plainFit (firstFree 8) 1 ⟨2, 20⟩).states (Memory.leaf oneKey), mem.Readable [⟨1, 10⟩] := by
  refine ⟨oneKey_wellFormed, fun hreadable => ?_⟩
  have hstrays : ∃ mem ∈ (insert plainFit (firstFree 8) 1 ⟨2, 20⟩).states (Memory.leaf oneKey),
      find mem 1 1 mem.root = .strays := by decide +kernel
  obtain ⟨mem, hmem, hfind⟩ := hstrays
  exact (hreadable mem hmem).follows 1 1 hfind

end Examples

end LearnedIndex.Lipp.Heap
