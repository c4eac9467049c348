import LearnedIndex.Lipp.Heap.Defs
import LearnedIndex.Lipp.Stored
import Mathlib.Data.Set.Basic

/-! Nodes in memory that stand for a tree, and the changes of the memory behind which a lookup
still finds all that the tree stores. -/

namespace LearnedIndex.Lipp.Heap

variable {K : Type}

/-- A node in memory agrees with one that is a value, but for the children. -/
structure Cell.Stands (c : Cell K) (n : Node K (Tree K)) : Prop where
  isTwo : c.isTwo = n.isTwo
  buildSize : c.buildSize = n.buildSize
  size : c.size = n.size
  fixed : c.fixed = n.fixed
  numInserts : c.numInserts = n.numInserts
  numInsertToData : c.numInsertToData = n.numInsertToData
  numItems : c.numItems = n.numItems
  model : c.model = n.model
  noneBitmap : c.noneBitmap = some n.noneBitmap
  childBitmap : c.childBitmap = some n.childBitmap
  items : ∃ items, c.items = some items ∧ items.length = n.items.length
  data : ∀ i kv, n.view i = .data kv → c.data i = some kv

/-- The parts of a set of pointers that the children of `p` have to themselves. -/
structure Apart (p : Pointer) (own : Nat → Set Pointer) (foot : Set Pointer) : Prop where
  top : p ∈ foot
  part : ∀ i, own i ⊆ foot
  not_top : ∀ i, p ∉ own i
  disjoint : ∀ i j, i ≠ j → ∀ q ∈ own i, q ∉ own j

/-- `Represents nodes p t foot`: the node at `p` stands for the tree, and with all below it lies
in `foot`, where no two children have a node in common. -/
inductive Represents (nodes : Pointer → Option (Cell K)) : Pointer → Tree K → Set Pointer → Prop
  | node {p c n foot} {next : Nat → Pointer} {own : Nat → Set Pointer} (live : nodes p = some c)
      (stands : c.Stands n) (child : ∀ i t, n.view i = .child t → c.child i = some (next i))
      (below : ∀ i t, n.view i = .child t → Represents nodes (next i) t (own i))
      (apart : Apart p own foot) : Represents nodes p (.node n) foot

namespace Cell.Stands

variable {c : Cell K} {n : Node K (Tree K)}

theorem predictPos (h : c.Stands n) (key : K) : c.predictPos key = n.predictPos key := by
  rw [Cell.predictPos, Node.predictPos, h.numItems, h.model]

theorem isNone (h : c.Stands n) (i : Nat) : c.isNone i = some (n.isNone i) := by
  rw [Cell.isNone, h.noneBitmap]
  rfl

theorem isChild (h : c.Stands n) (i : Nat) : c.isChild i = some (n.isChild i) := by
  rw [Cell.isChild, h.childBitmap]
  rfl

theorem needRebuild (h : c.Stands n) : c.needRebuild = n.needRebuild := by
  rw [Cell.needRebuild, Node.needRebuild, h.fixed, h.buildSize, h.size, h.numInserts, h.numInsertToData]

/-- A node needs no rebuild when the fields of its cell say so. -/
theorem needRebuild_iff {nodes : Pointer → Option (Cell K)} {p : Pointer} (h : c.Stands n)
    (live : nodes p = some c) :
    n.needRebuild = false ↔ ∀ c', nodes p = some c' → c'.needRebuild = false := by
  rw [← h.needRebuild, live]
  constructor
  · intro hkeep c' hc'
    rw [← Option.some.inj hc']
    exact hkeep
  · exact fun hall => hall c rfl

end Cell.Stands

theorem Represents.congr {nodes nodes' : Pointer → Option (Cell K)} {p : Pointer} {t : Tree K}
    {foot : Set Pointer} (h : Represents nodes p t foot) (hsame : ∀ q ∈ foot, nodes' q = nodes q) :
    Represents nodes' p t foot := by
  induction h with
  | node live stands child below apart ih =>
    apply Represents.node ((hsame _ apart.top).trans live) stands child _ apart
    exact fun i t hview => ih i t hview fun q hq => hsame q (apart.part i hq)

/-- Where `c` has a key or a child, `c'` has the same. -/
structure Cell.Extends (c c' : Cell K) : Prop where
  numItems : c'.numItems = c.numItems
  model : c'.model = c.model
  isChild : ∀ i, c'.isChild i = c.isChild i
  occupied : ∀ i, c.isNone i = some false → c'.isNone i = some false ∧ c'.item i = c.item i

namespace Cell.Extends

variable {c c' c'' : Cell K}

theorem refl (c : Cell K) : c.Extends c := ⟨rfl, rfl, fun _ => rfl, fun _ h => ⟨h, rfl⟩⟩

theorem trans (h : c.Extends c') (h' : c'.Extends c'') : c.Extends c'' where
  numItems := h'.numItems.trans h.numItems
  model := h'.model.trans h.model
  isChild i := (h'.isChild i).trans (h.isChild i)
  occupied i hi := by
    obtain ⟨hnone, hitem⟩ := h.occupied i hi
    obtain ⟨hnone', hitem'⟩ := h'.occupied i hnone
    exact ⟨hnone', hitem'.trans hitem⟩

theorem predictPos (h : c.Extends c') (key : K) : c'.predictPos key = c.predictPos key := by
  rw [Cell.predictPos, Cell.predictPos, h.numItems, h.model]

theorem data (h : c.Extends c') {i : Nat} (hi : c.isNone i = some false) : c'.data i = c.data i := by
  rw [Cell.data, Cell.data, (h.occupied i hi).2]

theorem child (h : c.Extends c') {i : Nat} (hi : c.isNone i = some false) : c'.child i = c.child i := by
  rw [Cell.child, Cell.child, (h.occupied i hi).2]

end Cell.Extends

/-- No node is lost, and none loses a key or a child. -/
structure Memory.Extends (mem mem' : Memory K) : Prop where
  root : mem'.root = mem.root
  pendingTwo : mem'.pendingTwo = mem.pendingTwo
  nodes : ∀ p c, mem.nodes p = some c → ∃ c', mem'.nodes p = some c' ∧ c.Extends c'

namespace Memory.Extends

variable {mem mem' mem'' : Memory K}

theorem refl (mem : Memory K) : mem.Extends mem := ⟨rfl, rfl, fun _ c h => ⟨c, h, .refl c⟩⟩

theorem trans (h : mem.Extends mem') (h' : mem'.Extends mem'') : mem.Extends mem'' where
  root := h'.root.trans h.root
  pendingTwo := h'.pendingTwo.trans h.pendingTwo
  nodes p c hp := by
    obtain ⟨c', hp', hc⟩ := h.nodes p c hp
    obtain ⟨c'', hp'', hc'⟩ := h'.nodes p c' hp'
    exact ⟨c'', hp'', hc.trans hc'⟩

theorem set {p : Pointer} {c c' : Cell K} (h : mem.nodes p = some c) (hc : c.Extends c') :
    mem.Extends (mem.set p (some c')) where
  root := rfl
  pendingTwo := rfl
  nodes q d hq := by
    by_cases heq : q = p
    · subst heq
      obtain rfl := Option.some.inj (h.symm.trans hq)
      exact ⟨c', Function.update_self _ _ _, hc⟩
    · exact ⟨d, (Function.update_of_ne heq _ _).trans hq, .refl d⟩

theorem live (h : mem.Extends mem') {p : Pointer} (hp : mem.Live p) : mem'.Live p := by
  obtain ⟨hsome, hpending⟩ := hp
  obtain ⟨c, hc⟩ := Option.isSome_iff_exists.mp hsome
  obtain ⟨c', hc', -⟩ := h.nodes p c hc
  exact ⟨hc' ▸ rfl, h.pendingTwo ▸ hpending⟩

end Memory.Extends

section Find

variable [DecidableEq K] {mem : Memory K} {p q : Pointer} {c : Cell K} {key : K} {fuel : Nat}

theorem find_data (hp : mem.nodes p = some c) (hchild : c.isChild (c.predictPos key) = some false) :
    find mem key (fuel + 1) p = c.findData (c.predictPos key) key := by
  rw [find, hp]
  dsimp only
  rw [hchild]

theorem find_child (hp : mem.nodes p = some c) (hchild : c.isChild (c.predictPos key) = some true)
    (hq : c.child (c.predictPos key) = some q) :
    find mem key (fuel + 1) p = if mem.Live q then find mem key fuel q else .strays := by
  rw [find, hp]
  dsimp only
  rw [hchild]
  dsimp only
  rw [hq]

theorem findData_ne_strays (c : Cell K) (pos : Nat) (key : K) : c.findData pos key ≠ .strays := by
  unfold Cell.findData
  split
  · exact Lookup.noConfusion
  · split
    · split
      · exact Lookup.noConfusion
      · exact Lookup.noConfusion
    · exact Lookup.noConfusion
  · exact Lookup.noConfusion

theorem find_data_ne_strays (hp : mem.nodes p = some c)
    (hchild : c.isChild (c.predictPos key) = some false) (fuel : Nat) : find mem key fuel p ≠ .strays := by
  cases fuel with
  | zero => exact Lookup.noConfusion
  | succ fuel =>
    rw [find_data hp hchild]
    exact findData_ne_strays _ _ _

theorem findData_eq {kv : KeyValue K} {pos : Nat} (hnone : c.isNone pos = some false)
    (hdata : c.data pos = some kv) : c.findData pos kv.key = .found kv.value := by
  rw [Cell.data] at hdata
  split at hdata
  · next k value hitem =>
    obtain rfl := Option.some.inj hdata
    rw [Cell.findData, hnone, hitem]
    exact if_pos rfl
  · cases hdata

end Find

theorem Represents.mem_foot {nodes : Pointer → Option (Cell K)} {p : Pointer} {t : Tree K}
    {foot : Set Pointer} (h : Represents nodes p t foot) : p ∈ foot := by
  cases h with
  | node live stands child below apart => exact apart.top

theorem Represents.live {mem : Memory K} {p : Pointer} {t : Tree K} {foot : Set Pointer}
    (h : Represents mem.nodes p t foot) (hfree : ∀ q ∈ foot, q ∉ mem.pendingTwo) : mem.Live p := by
  refine ⟨?_, hfree p h.mem_foot⟩
  cases h with
  | node live stands child below apart => exact live ▸ rfl

variable [LinearOrder K]

/-- The memory has the tree at its root; no node of it waits to be recycled. -/
structure Memory.WellFormed (mem : Memory K) (t : Tree K) (kvs : List (KeyValue K)) : Prop where
  represents : ∃ foot, Represents mem.nodes mem.root t foot ∧ ∀ p ∈ foot, p ∉ mem.pendingTwo
  holds : Holds t kvs

/-- No lookup strays, and the pairs are found. -/
structure Memory.Readable (mem : Memory K) (kvs : List (KeyValue K)) : Prop where
  follows : ∀ key fuel, find mem key fuel mem.root ≠ .strays
  finds : ∀ kv ∈ kvs, ∃ fuel, find mem kv.key fuel mem.root = .found kv.value

/-- Lookups in a memory that extends the one of a tree. -/
theorem Represents.find {mem mem' : Memory K} {p : Pointer} {t : Tree K} {foot : Set Pointer}
    {kvs : List (KeyValue K)} (h : Represents mem.nodes p t foot) (hfree : ∀ q ∈ foot, q ∉ mem.pendingTwo)
    (ht : Holds t kvs) (hext : mem.Extends mem') (key : K) :
    (∀ fuel, Heap.find mem' key fuel p ≠ .strays) ∧
      ∀ v, ⟨key, v⟩ ∈ kvs → ∃ fuel, Heap.find mem' key fuel p = .found v := by
  induction h generalizing kvs with
  | @node p c n foot next own live stands child below apart ih =>
    obtain ⟨f, hf, rfl⟩ := ht.filled
    obtain ⟨c', hp, hc⟩ := hext.nodes p c live
    have hpos : c'.predictPos key = n.predictPos key := (hc.predictPos key).trans (stands.predictPos key)
    have hlt := hf.shape.predictPos_lt key
    have hitem := hf.item _ hlt
    have hmem : ∀ v, ⟨key, v⟩ ∈ n.total f ↔ ⟨key, v⟩ ∈ f (n.predictPos key) := fun v => hf.mem_total
    have hchild : c'.isChild (c'.predictPos key) = some (n.isChild (n.predictPos key)) := by
      rw [hc.isChild, hpos, stands.isChild]
    simp only [hmem]
    cases hview : n.view (n.predictPos key) with
    | empty =>
      rw [(Node.view_eq_empty.mp hview).2] at hchild
      rw [hview] at hitem
      rw [show f (n.predictPos key) = [] from hitem]
      exact ⟨find_data_ne_strays hp hchild, fun v hv => absurd hv List.not_mem_nil⟩
    | data kv =>
      obtain ⟨hnone, hbit, -⟩ := Node.view_eq_data.mp hview
      rw [hbit] at hchild
      rw [hview] at hitem
      rw [show f (n.predictPos key) = [kv] from hitem]
      refine ⟨find_data_ne_strays hp hchild, fun v hv => ?_⟩
      obtain rfl := List.mem_singleton.mp hv
      have hfalse : c.isNone (n.predictPos key) = some false := by rw [stands.isNone, hnone]
      refine ⟨1, ?_⟩
      rw [find_data hp hchild, hpos]
      exact findData_eq (hc.occupied _ hfalse).1 ((hc.data hfalse).trans (stands.data _ _ hview))
    | child t =>
      obtain ⟨hnone, hbit, -⟩ := Node.view_eq_child.mp hview
      rw [hbit] at hchild
      have hfalse : c.isNone (n.predictPos key) = some false := by rw [stands.isNone, hnone]
      have hnext : c'.child (c'.predictPos key) = some (next (n.predictPos key)) := by
        rw [hpos, hc.child hfalse, child _ t hview]
      have hrest := below _ t hview
      have hfree' : ∀ q ∈ own (n.predictPos key), q ∉ mem.pendingTwo := fun q hq => hfree q (apart.part _ hq)
      have hlive := hext.live (hrest.live hfree')
      obtain ⟨hfollows, hfinds⟩ := ih _ t hview hfree' (hf.children _ hlt t hview)
      constructor
      · intro fuel
        cases fuel with
        | zero => exact Lookup.noConfusion
        | succ fuel =>
          rw [find_child hp hchild hnext, if_pos hlive]
          exact hfollows fuel
      · intro v hv
        obtain ⟨fuel, hfound⟩ := hfinds v hv
        refine ⟨fuel + 1, ?_⟩
        rw [find_child hp hchild hnext, if_pos hlive, hfound]
    | invalid =>
      rw [hview] at hitem
      exact hitem.elim

/-- What extends the memory of a tree can be read. -/
theorem Memory.Extends.readable {mem mem' : Memory K} {t : Tree K} {kvs : List (KeyValue K)}
    (h : mem.Extends mem') (hmem : mem.WellFormed t kvs) : mem'.Readable kvs := by
  obtain ⟨⟨foot, hrep, hfree⟩, ht⟩ := hmem
  rw [← h.root] at hrep
  constructor
  · exact fun key => (hrep.find hfree ht h key).1
  · exact fun kv hkv => (hrep.find hfree ht h kv.key).2 kv.value hkv

end LearnedIndex.Lipp.Heap
