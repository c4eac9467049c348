import LearnedIndex.DoublyLinked
import LearnedIndex.Loop
import LearnedIndex.Search
import LearnedIndex.Util

/-! `stx::btree_multimap`: the inner nodes are values, the leaves are in memory, where they are
linked in both directions.  `none` stands for a pointer to nothing and for a write past an array. -/

namespace LearnedIndex.BTree

open Util

/-- `leaf_node*` -/
abbrev Pointer := Nat

structure Traits where
  leafslotmax : Nat
  innerslotmax : Nat
  leafslotmax_ge : 8 ≤ leafslotmax
  innerslotmax_ge : 8 ≤ innerslotmax

namespace Traits

def minleafslots (t : Traits) : Nat := t.leafslotmax / 2
def mininnerslots (t : Traits) : Nat := t.innerslotmax / 2

/-- `btree_default_map_traits`, for keys of this size. -/
def ofNodeSize (keySize maxNodeSize : Nat) : Traits where
  leafslotmax := max 8 (maxNodeSize / (keySize + 8))
  innerslotmax := max 8 (maxNodeSize / (keySize + 8))
  leafslotmax_ge := Nat.le_max_left _ _
  innerslotmax_ge := Nat.le_max_left _ _

end Traits

/-- The slots in use; `slotkey` and `slotdata` are one list. -/
structure LeafNode (K : Type) where
  prevleaf : Option Pointer
  nextleaf : Option Pointer
  slots : List (KeyValue K)

structure InnerNode (K N : Type) where
  slotkey : List K
  childid : List N

/-- The nodes of a level. -/
def Node (K : Type) : Nat → Type
  | 0 => Pointer
  | level + 1 => InnerNode K (Node K level)

/-- `tree_stats` -/
structure Stats where
  itemcount : Nat
  leaves : Nat
  innernodes : Nat
  deriving DecidableEq

/-- The leaves by address, and the members of the tree besides its root. -/
structure Memory (K : Type) where
  nodes : List (LeafNode K)
  headleaf : Option Pointer
  tailleaf : Option Pointer
  stats : Stats

structure Iterator where
  currnode : Option Pointer
  currslot : Nat
  deriving DecidableEq

variable {K : Type}

namespace Memory

def empty : Memory K := ⟨[], none, none, ⟨0, 0, 0⟩⟩

def get (m : Memory K) (p : Pointer) : Option (LeafNode K) := m.nodes[p]?

def update (m : Memory K) (p : Pointer) (f : LeafNode K → LeafNode K) : Memory K :=
  { m with nodes := m.nodes.modify p f }

def modify (m : Memory K) (p : Pointer) (f : LeafNode K → LeafNode K) : Option (Memory K) :=
  if p < m.nodes.length then some (m.update p f) else none

def allocateLeaf (m : Memory K) : Pointer × Memory K :=
  (m.nodes.length, { m with
    nodes := m.nodes ++ [⟨none, none, []⟩]
    stats := { m.stats with leaves := m.stats.leaves + 1 } })

/-- `m_headleaf = m_tailleaf = allocate_leaf()` -/
def allocateFirst (m : Memory K) : Memory K :=
  { m.allocateLeaf.2 with headleaf := some m.allocateLeaf.1, tailleaf := some m.allocateLeaf.1 }

/-- The counter in `allocate_inner`. -/
def allocateInner (m : Memory K) : Memory K :=
  { m with stats := { m.stats with innernodes := m.stats.innernodes + 1 } }

def setTailleaf (m : Memory K) (p : Pointer) : Memory K := { m with tailleaf := some p }

/-- Moves the slots from this one on, and writes it. -/
def put (t : Traits) (m : Memory K) (p : Pointer) (slot : Nat) (kv : KeyValue K) : Option (Memory K) := do
  let leaf ← m.get p
  if leaf.slots.length < t.leafslotmax then
    m.modify p fun leaf => { leaf with slots := leaf.slots.insertIdx slot kv }
  else none

/-- `split_leaf_node` -/
def splitLeafNode (m : Memory K) (p : Pointer) : Option (K × Pointer × Memory K) := do
  let leaf ← m.get p
  let mid := leaf.slots.length / 2
  let q := m.allocateLeaf.1
  let m := m.allocateLeaf.2
  let m ← m.modify q ({ · with nextleaf := leaf.nextleaf })
  let m ← match leaf.nextleaf with
    | none => some (m.setTailleaf q)
    | some next => m.modify next ({ · with prevleaf := some q })
  let m ← m.modify q ({ · with slots := leaf.slots.drop mid })
  let m ← m.modify p ({ · with slots := leaf.slots.take mid, nextleaf := some q })
  let m ← m.modify q ({ · with prevleaf := some p })
  let last ← (leaf.slots.take mid).getLast?
  return (last.key, q, m)

end Memory

/-- `class btree` -/
structure Btree (K : Type) where
  root : Option (Σ level, Node K level)
  memory : Memory K

namespace Btree

def empty : Btree K := ⟨none, .empty⟩

end Btree

section Insert

/-- What an insertion leaves: the node, its new sibling behind the key that divides them, and
where the pair is. -/
structure Inserted (K N : Type) where
  node : N
  split : Option (K × N)
  it : Iterator

variable [LinearOrder K] (t : Traits) (search : Search K)

/-- `find_lower` -/
def findLower (slotkey : List K) (key : K) : Nat := search.lowerBound slotkey 0 slotkey.length key 0

/-- `insert_descend` at a leaf. -/
def insertLeaf (kv : KeyValue K) (p : Pointer) (m : Memory K) : Option (Inserted K Pointer × Memory K) := do
  let leaf ← m.get p
  let slot := findLower search (keys leaf.slots) kv.key
  if leaf.slots.length = t.leafslotmax then
    let (splitkey, q, m) ← m.splitLeafNode p
    let leaf ← m.get p
    if leaf.slots.length ≤ slot then
      let slot := slot - leaf.slots.length
      let m ← m.put t q slot kv
      return (⟨p, some (splitkey, q), ⟨some q, slot⟩⟩, m)
    else
      let m ← m.put t p slot kv
      let splitkey := if slot = leaf.slots.length then kv.key else splitkey
      return (⟨p, some (splitkey, q), ⟨some p, slot⟩⟩, m)
  else
    -- The split key may be written here as well, but nothing reads it.
    let m ← m.put t p slot kv
    return (⟨p, none, ⟨some p, slot⟩⟩, m)

variable {N : Type}

/-- Moves the slots from this one on, and writes the key and the child behind it. -/
def InnerNode.put (inner : InnerNode K N) (slot : Nat) (newkey : K) (newchild : N) : Option (InnerNode K N) :=
  if inner.slotkey.length < t.innerslotmax then
    some ⟨inner.slotkey.insertIdx slot newkey, inner.childid.insertIdx (slot + 1) newchild⟩
  else none

omit [LinearOrder K] in
/-- `split_inner_node` -/
def InnerNode.split (inner : InnerNode K N) (addslot : Nat) : Option (InnerNode K N × K × InnerNode K N) := do
  let slotuse := inner.slotkey.length
  let mid := slotuse / 2
  let mid := if addslot ≤ mid ∧ slotuse - (mid + 1) < mid then mid - 1 else mid
  let newkey ← inner.slotkey[mid]?
  return (⟨inner.slotkey.take mid, inner.childid.take (mid + 1)⟩, newkey,
    ⟨inner.slotkey.drop (mid + 1), inner.childid.drop (mid + 1)⟩)

/-- `insert_descend` at an inner node whose child in this slot has a new sibling. -/
def InnerNode.insertChild (inner : InnerNode K N) (slot : Nat) (newkey : K) (newchild : N) :
    Option (InnerNode K N × Option (K × InnerNode K N)) := do
  if inner.slotkey.length = t.innerslotmax then
    let (inner, splitkey, splitinner) ← inner.split slot
    let slotuse := inner.slotkey.length
    if slot = slotuse + 1 ∧ slotuse < splitinner.slotkey.length then
      -- The new key is the one that divides the two nodes.
      let first ← splitinner.childid[0]?
      return (⟨inner.slotkey ++ [splitkey], inner.childid ++ [first]⟩,
        some (newkey, ⟨splitinner.slotkey, splitinner.childid.set 0 newchild⟩))
    else if slotuse + 1 ≤ slot then
      let splitinner ← splitinner.put t (slot - (slotuse + 1)) newkey newchild
      return (inner, some (splitkey, splitinner))
    else
      let inner ← inner.put t slot newkey newchild
      return (inner, some (splitkey, splitinner))
  else
    let inner ← inner.put t slot newkey newchild
    return (inner, none)

/-- `insert_descend` -/
def insertDescend (kv : KeyValue K) :
    (level : Nat) → Node K level → Memory K → Option (Inserted K (Node K level) × Memory K)
  | 0, p, m => insertLeaf t search kv p m
  | level + 1, inner, m => do
    let inner : InnerNode K (Node K level) := inner
    let slot := findLower search inner.slotkey kv.key
    let child ← inner.childid[slot]?
    let (r, m) ← insertDescend kv level child m
    let inner := { inner with childid := inner.childid.set slot r.node }
    match r.split with
    | none => return (⟨inner, none, r.it⟩, m)
    | some (newkey, newchild) =>
      let (inner, split) ← inner.insertChild t slot newkey newchild
      let m := if split.isSome then m.allocateInner else m
      return (⟨inner, split, r.it⟩, m)

omit [LinearOrder K] in
/-- The end of `insert_start`: a root that was split gets a new one above it. -/
def Inserted.tree {level : Nat} (r : Inserted K (Node K level)) (m : Memory K) : Btree K :=
  let (root, m) : (Σ level, Node K level) × Memory K := match r.split with
    | none => (⟨level, r.node⟩, m)
    | some (newkey, newchild) =>
      (⟨level + 1, (⟨[newkey], [r.node, newchild]⟩ : InnerNode K (Node K level))⟩, m.allocateInner)
  ⟨some root, { m with stats := { m.stats with itemcount := m.stats.itemcount + 1 } }⟩

/-- `insert_start` -/
def Btree.insertStart (tree : Btree K) (kv : KeyValue K) : Option (Btree K × Iterator) := do
  let (root, m) : (Σ level, Node K level) × Memory K := match tree.root with
    | some root => (root, tree.memory)
    | none => (⟨0, tree.memory.allocateLeaf.1⟩, tree.memory.allocateFirst)
  let (r, m) ← insertDescend t search kv root.1 root.2 m
  return (r.tree m, r.it)

end Insert

section Access

variable [LinearOrder K] (search : Search K)

/-- The way of a key down to a leaf. -/
def descend (key : K) : (level : Nat) → Node K level → Option Pointer
  | 0, p => some p
  | level + 1, inner => do
    let inner : InnerNode K (Node K level) := inner
    descend key level (← inner.childid[findLower search inner.slotkey key]?)

omit [LinearOrder K] in
def Memory.end (m : Memory K) : Option Iterator :=
  match m.tailleaf with
  | none => some ⟨none, 0⟩
  | some p => (m.get p).map fun leaf => ⟨some p, leaf.slots.length⟩

namespace Btree

def find (tree : Btree K) (key : K) : Option Iterator :=
  match tree.root with
  | none => tree.memory.end
  | some root => do
    let p ← descend search key root.1 root.2
    let leaf ← tree.memory.get p
    let slot := findLower search (keys leaf.slots) key
    if (leaf.slots[slot]?).any fun kv => kv.key = key then return ⟨some p, slot⟩ else tree.memory.end

def lowerBound (tree : Btree K) (key : K) : Option Iterator :=
  match tree.root with
  | none => tree.memory.end
  | some root => do
    let p ← descend search key root.1 root.2
    let leaf ← tree.memory.get p
    return ⟨some p, findLower search (keys leaf.slots) key⟩

end Btree

namespace Iterator

omit [LinearOrder K]

/-- `*it` -/
def deref (m : Memory K) (it : Iterator) : Option (KeyValue K) := do
  let leaf ← m.get (← it.currnode)
  leaf.slots[it.currslot]?

/-- `++it` -/
def next (m : Memory K) (it : Iterator) : Option Iterator := do
  let leaf ← m.get (← it.currnode)
  if it.currslot + 1 < leaf.slots.length then return { it with currslot := it.currslot + 1 }
  else if leaf.nextleaf.isSome then return ⟨leaf.nextleaf, 0⟩
  else return { it with currslot := leaf.slots.length }

end Iterator

end Access

section BulkLoad

variable (t : Traits)

/-- `m_tailleaf->nextleaf = leaf`, or the leaf is the first one. -/
def Memory.append (m : Memory K) (p : Pointer) : Option (Memory K) := do
  let m ← match m.tailleaf with
    | none => some { m with headleaf := some p }
    | some tail =>
      let m ← m.modify tail ({ · with nextleaf := some p })
      m.modify p ({ · with prevleaf := some tail })
  return m.setTailleaf p

/-- The loop over `num_leaves` leaves that are still to be loaded. -/
def loadLeaves : (numLeaves : Nat) → List (KeyValue K) → Memory K → Option (Memory K)
  | 0, _, m => some m
  | numLeaves + 1, items, m => do
    let slotuse := items.length / (numLeaves + 1)
    let p := m.allocateLeaf.1
    let m ← m.allocateLeaf.2.modify p ({ · with slots := items.take slotuse })
    let m ← m.append p
    loadLeaves numLeaves (items.drop slotuse) m

/-- The next leaves from this one on with their last keys, and the leaf behind them. -/
def takeLeaves (m : Memory K) : Nat → Option Pointer → Option (List (Pointer × K) × Option Pointer)
  | 0, leaf => some ([], leaf)
  | n + 1, leaf => do
    let p ← leaf
    let node ← m.get p
    let last ← node.slots.getLast?
    let (ps, leaf) ← takeLeaves m n node.nextleaf
    return ((p, last.key) :: ps, leaf)

/-- An inner node over these children with their largest keys, and its own largest key. -/
def parentOf {N : Type} (children : List (N × K)) : Option (InnerNode K N × K) := do
  let last ← children.getLast?
  return (⟨children.dropLast.map Prod.snd, children.map Prod.fst⟩, last.2)

/-- The loop over `num_parents` inner nodes on level 1. -/
def loadParents (m : Memory K) :
    (numParents : Nat) → (numLeaves : Nat) → Option Pointer → Option (List (InnerNode K Pointer × K))
  | 0, _, _ => some []
  | numParents + 1, numLeaves, leaf => do
    let children := numLeaves / (numParents + 1)
    let (ps, leaf) ← takeLeaves m children leaf
    let parent ← parentOf ps
    return parent :: (← loadParents m numParents (numLeaves - children) leaf)

/-- The loop over `num_parents` inner nodes on a level above. -/
def loadLevel {N : Type} : (numParents : Nat) → List (N × K) → Option (List (InnerNode K N × K))
  | 0, _ => some []
  | numParents + 1, nextlevel => do
    let children := nextlevel.length / (numParents + 1)
    let parent ← parentOf (nextlevel.take children)
    return parent :: (← loadLevel numParents (nextlevel.drop children))

/-- As many leaves as it takes for this many items. -/
def Traits.numLeaves (numItems : Nat) : Nat := (numItems + t.leafslotmax - 1) / t.leafslotmax

/-- As many nodes as it takes for this many children. -/
def Traits.numParents (numChildren : Nat) : Nat := (numChildren + (t.innerslotmax + 1) - 1) / (t.innerslotmax + 1)

/-- The loop over the levels, up to the root, with the inner nodes that it allocates. -/
def loadLevels : (fuel level : Nat) → List (Node K level × K) → Option ((Σ level, Node K level) × Nat)
  | _, level, [(n, _)] => some (⟨level, n⟩, 0)
  | 0, _, _ => none
  | fuel + 1, level, nextlevel => do
    let parents ← loadLevel (t.numParents nextlevel.length) nextlevel
    let (root, innernodes) ← loadLevels fuel (level + 1) parents
    return (root, innernodes + parents.length)

/-- `bulk_load` -/
def Btree.bulkLoad (tree : Btree K) (items : List (KeyValue K)) : Option (Btree K) := do
  let numLeaves := t.numLeaves items.length
  let m := { tree.memory with stats := { tree.memory.stats with itemcount := items.length } }
  let m ← loadLeaves numLeaves items m
  if m.headleaf = m.tailleaf then
    return ⟨m.headleaf.map fun p => ⟨0, p⟩, m⟩
  else
    let parents ← loadParents m (t.numParents numLeaves) numLeaves m.headleaf
    let (root, innernodes) ← loadLevels t parents.length 1 parents
    let innernodes := m.stats.innernodes + parents.length + innernodes
    return ⟨some root, { m with stats := { m.stats with innernodes := innernodes } }⟩

end BulkLoad

end LearnedIndex.BTree
