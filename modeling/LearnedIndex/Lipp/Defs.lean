import LearnedIndex.Bitmap
import LearnedIndex.Hybrid.Parts
import Mathlib.Order.Monotone.Basic

/-! `LIPP` with its nodes as values.  The linear models are parameters; freed memory is not
seen, except for the two-key nodes that `pending_two` keeps for the next conflict. -/

universe u v

namespace LearnedIndex.Lipp

open Hybrid Hybrid.Outcome

/-- How a call fails. -/
inductive Failure
  /-- `vs[i].first > vs[i-1].first` -/
  | increasing
  /-- `key1 < key2` -/
  | ordered
  /-- `BITMAP_GET(node->none_bitmap, pos) == 1` -/
  | slotEmpty
  /-- The assertions on a new linear model. -/
  | modelFinite
  /-- `_size > 1` -/
  | several
  /-- `path_size < MAX_DEPTH` -/
  | depth
  /-- `SHOULD_END_POS == begin` -/
  | scanned
  /-- `node->build_size == 2` -/
  | twoBuildSize
  /-- `node->num_items == 8` -/
  | twoNumItems
  /-- Not an assertion: an access outside of an array, or to what was never written. -/
  | access
  deriving DecidableEq

abbrev Run := Hybrid.Outcome Failure

/-- The union `comp` of an item, whose memory is not initialised. -/
inductive Item (K : Type u) (N : Type v)
  | uninit
  | data (key : K) (value : UInt64)
  | child (node : N)

/-- A node; `model` is the predicted position before it is cut off at `num_items`. -/
structure Node (K : Type u) (N : Type v) where
  isTwo : Bool
  buildSize : Nat
  size : Nat
  fixed : Bool
  numInserts : Nat
  numInsertToData : Nat
  numItems : Nat
  model : K → Nat
  items : List (Item K N)
  noneBitmap : Bitmap
  childBitmap : Bitmap

/-- A node with its children. -/
inductive Tree (K : Type u)
  | node (node : Node K (Tree K))

variable {K : Type u} {N : Type v}

namespace Node

/-- `PREDICT_POS` -/
def predictPos (n : Node K N) (key : K) : Nat := min (n.numItems - 1) (n.model key)

def isNone (n : Node K N) (i : Nat) : Bool := n.noneBitmap.get i
def isChild (n : Node K N) (i : Nat) : Bool := n.childBitmap.get i

def place (n : Node K N) (pos : Nat) (kv : KeyValue K) : Node K N :=
  { n with noneBitmap := n.noneBitmap.clear pos, items := n.items.set pos (.data kv.key kv.value) }

def placeChild (n : Node K N) (pos : Nat) (c : N) : Node K N :=
  { n with
    noneBitmap := n.noneBitmap.clear pos
    childBitmap := n.childBitmap.set pos
    items := n.items.set pos (.child c) }

/-- The data of an item gives way to a child. -/
def replaceData (n : Node K N) (pos : Nat) (c : N) : Node K N :=
  { n with childBitmap := n.childBitmap.set pos, items := n.items.set pos (.child c) }

def setChild (n : Node K N) (pos : Nat) (c : N) : Node K N :=
  { n with items := n.items.set pos (.child c) }

/-- What `destroy_tree` leaves of a node with two keys. -/
def reset (n : Node K N) : Node K N :=
  { n with
    size := 2
    numInserts := 0
    numInsertToData := 0
    noneBitmap := List.set n.noneBitmap 0 0xff
    childBitmap := List.set n.childBitmap 0 0 }

def count (n : Node K N) : Node K N :=
  { n with size := n.size + 1, numInserts := n.numInserts + 1 }

def countToData (n : Node K N) (toData : Bool) : Node K N :=
  { n with numInsertToData := n.numInsertToData + toData.toNat }

/-- `need_rebuild` -/
def needRebuild (n : Node K N) : Bool :=
  !n.fixed && decide (n.buildSize * 4 ≤ n.size ∧ 64 ≤ n.size ∧
    n.numInserts ≤ n.numInsertToData * 10)

end Node

/-- The linear models: for a node over these keys, and for one with two keys; `none` when an
assertion on the model fails.  Predicted positions ascend with the keys. -/
structure Fit (K : Type u) [LinearOrder K] where
  bulk : List K → Option (K → Nat)
  two : K → K → Option (K → Nat)
  bulk_mono : ∀ {ks model}, bulk ks = some model → Monotone model
  two_mono : ∀ {k₁ k₂ model}, two k₁ k₂ = some model → Monotone model

def computeGapCount (size : Nat) : Nat :=
  if 1000000 ≤ size then 1 else if 100000 ≤ size then 2 else 5

/-- `build_tree_none` -/
def buildTreeNone : Node K N where
  isTwo := false
  buildSize := 0
  size := 0
  fixed := false
  numInserts := 0
  numInsertToData := 0
  numItems := 1
  model := fun _ => 0
  items := [.uninit]
  noneBitmap := Bitmap.set [0] 0
  childBitmap := [0]

/-- The node of `build_tree_two` before its keys are inserted. -/
def twoNode (model : K → Nat) : Node K N where
  isTwo := true
  buildSize := 2
  size := 2
  fixed := false
  numInserts := 0
  numInsertToData := 0
  numItems := 8
  model := model
  items := List.replicate 8 .uninit
  noneBitmap := [0xff]
  childBitmap := [0]

/-- The node of `build_tree_bulk` before its keys are inserted. -/
def bulkNode (size : Nat) (model : K → Nat) : Node K N where
  isTwo := false
  buildSize := size
  size := size
  fixed := decide (1000000 < size)
  numInserts := 0
  numInsertToData := 0
  numItems := size * (computeGapCount size + 1)
  model := model
  items := List.replicate (size * (computeGapCount size + 1)) .uninit
  noneBitmap := List.replicate (Bitmap.size (size * (computeGapCount size + 1))) 0xff
  childBitmap := List.replicate (Bitmap.size (size * (computeGapCount size + 1))) 0

/-- `pending_two`, with its top first. -/
abbrev Pool (K : Type u) := List (Node K (Tree K))

/-- What allocates and frees nodes. -/
abbrev Alloc (K : Type u) := StateT (Pool K) Run

def fail {α : Type u} (e : Failure) : Alloc K α := StateT.lift (exits e)

def rtAssert (e : Failure) (p : Prop) [Decidable p] : Alloc K PUnit := StateT.lift (require e p)

def ensure {α : Type u} (e : Failure) (o : Option α) : Alloc K α := StateT.lift (ofOption e o)

/-- A node for two keys, recycled if there is one. -/
def takeTwo (model : K → Nat) : Alloc K (Node K (Tree K)) :=
  modifyGet fun
    | [] => (twoNode model, [])
    | n :: pool => ({ n with model := model }, pool)

/-- Freeing a node: one for two keys is kept. -/
def recycle (n : Node K (Tree K)) : Alloc K PUnit :=
  if n.isTwo then do
    rtAssert .twoBuildSize (n.buildSize = 2)
    rtAssert .twoNumItems (n.numItems = 8)
    modifyGet fun pool => (⟨⟩, n.reset :: pool)
  else pure ⟨⟩

section Build

variable [LinearOrder K] (fit : Fit K)

/-- `build_tree_two`, once the smaller key comes first. -/
def buildOrdered (kv₁ kv₂ : KeyValue K) : Alloc K (Node K (Tree K)) := do
  rtAssert .ordered (kv₁.key < kv₂.key)
  let model ← ensure .modelFinite (fit.two kv₁.key kv₂.key)
  let n ← takeTwo model
  let pos := n.predictPos kv₁.key
  rtAssert .slotEmpty (n.isNone pos = true)
  let n := n.place pos kv₁
  let pos := n.predictPos kv₂.key
  rtAssert .slotEmpty (n.isNone pos = true)
  return n.place pos kv₂

/-- `build_tree_two` -/
def buildTreeTwo (kv₁ kv₂ : KeyValue K) : Alloc K (Node K (Tree K)) :=
  if kv₂.key < kv₁.key then buildOrdered fit kv₂ kv₁ else buildOrdered fit kv₁ kv₂

/-- The keys with the same predicted position as the first, over and over. -/
def runs (n : Node K N) (kvs : List (KeyValue K)) : List (List (KeyValue K)) :=
  kvs.splitBy fun kv₁ kv₂ => n.predictPos kv₁.key == n.predictPos kv₂.key

/-- One round of the loop that inserts the keys into a new node. -/
def placeRun (build : List (KeyValue K) → Alloc K (Tree K)) :
    List (KeyValue K) → Node K (Tree K) → Alloc K (Node K (Tree K))
  | [], n => pure n
  | [kv], n => pure (n.place (n.predictPos kv.key) kv)
  | kv :: kvs, n => do
    let c ← build (kv :: kvs)
    return n.placeChild (n.predictPos kv.key) c

/-- `build_tree_bulk`, for at most `fuel` levels; keys that all have the same predicted
position are built over and over, so that the number of keys is fuel enough.  The stack hands
out the children from the last to the first. -/
def buildTreeBulk : Nat → List (KeyValue K) → Alloc K (Tree K)
  | 0, _ => StateT.lift diverges
  | _, [] | _, [_] => fail .several
  | _, [kv₁, kv₂] => do return .node (← buildTreeTwo fit kv₁ kv₂)
  | fuel + 1, kvs => do
    let model ← ensure .modelFinite (fit.bulk (keys kvs))
    let n := bulkNode kvs.length model
    return .node (← (runs n kvs).foldrM (placeRun (buildTreeBulk fuel)) n)

end Build

mutual

/-- The number of nodes that items may point to, the node itself included. -/
def Tree.count : Tree K → Nat
  | .node ⟨_, _, _, _, _, _, _, _, items, _, _⟩ => countItems items + 1

def countItems : List (Item K (Tree K)) → Nat
  | [] => 0
  | item :: items => countItem item + countItems items

def countItem : Item K (Tree K) → Nat
  | .child c => c.count
  | _ => 0

end

section Destroy

/-- The arrays `keys` and `values`; an element that was never written is `none`. -/
abbrev Buffer (K : Type u) := List (Option (KeyValue K))

def Buffer.write (buffer : Buffer K) (pos : Nat) (kv : KeyValue K) : Alloc K (Buffer K) :=
  if pos < buffer.length then pure (buffer.set pos (some kv)) else fail .access

/-- The loop over the items of a node in `destroy_tree`. -/
def pushChild (n : Node K (Tree K)) (s : List (Node K (Tree K))) (i : Nat) :
    Alloc K (List (Node K (Tree K))) :=
  if n.isChild i then
    match n.items[i]? with
    | some (.child (.node c)) => pure (c :: s)
    | _ => fail .access
  else pure s

/-- The loop of `destroy_tree`, for at most `fuel` nodes. -/
def destroyLoop : Nat → List (Node K (Tree K)) → Alloc K PUnit
  | _, [] => pure ⟨⟩
  | 0, _ => StateT.lift diverges
  | fuel + 1, n :: s => do
    let s ← (List.range n.numItems).foldlM (pushChild n) s
    recycle n
    destroyLoop fuel s

/-- `destroy_tree` -/
def destroyTree : Tree K → Alloc K PUnit
  | .node n => destroyLoop (Tree.node n).count [n]

/-- The local variables of `scan_and_destory_tree`; a segment is the node and the place in the
arrays where its keys go. -/
structure Scan (K : Type u) where
  s : List (Nat × Node K (Tree K))
  begin : Nat
  buffer : Buffer K

/-- The loop over the items of a node in `scan_and_destory_tree`. -/
def scanItem (n : Node K (Tree K)) (scan : Scan K) (i : Nat) : Alloc K (Scan K) :=
  if n.isNone i then pure scan
  else match n.isChild i, n.items[i]? with
    | false, some (.data key value) => do
      let buffer ← scan.buffer.write scan.begin ⟨key, value⟩
      return { scan with begin := scan.begin + 1, buffer := buffer }
    | true, some (.child (.node c)) =>
      pure { scan with s := (scan.begin, c) :: scan.s, begin := scan.begin + c.size }
    | _, _ => fail .access

/-- The loop of `scan_and_destory_tree`, for at most `fuel` nodes. -/
def scanLoop : Nat → List (Nat × Node K (Tree K)) → Buffer K → Alloc K (Buffer K)
  | _, [], buffer => pure buffer
  | 0, _, _ => StateT.lift diverges
  | fuel + 1, (begin, n) :: s, buffer => do
    let scan ← (List.range n.numItems).foldlM (scanItem n) ⟨s, begin, buffer⟩
    rtAssert .scanned (begin + n.size = scan.begin)
    recycle n
    scanLoop fuel scan.s scan.buffer

/-- `scan_and_destory_tree`, for arrays of `ESIZE` elements; all of them are read afterwards. -/
def scanAndDestroyTree (n : Node K (Tree K)) : Alloc K (List (KeyValue K)) := do
  let buffer ← scanLoop (Tree.node n).count [(0, n)] (List.replicate n.size none)
  ensure .access (buffer.mapM id)

end Destroy

section Insert

variable [LinearOrder K] (fit : Fit K)

def maxDepth : Nat := 128

/-- The descent of `insert_tree`, for at most `fuel` nodes: the tree, whether the key met
another one, and the length of the path. -/
def insertDown (kv : KeyValue K) : Nat → Tree K → Alloc K (Tree K × Bool × Nat)
  | 0, _ => fail .depth
  | fuel + 1, .node n => do
    let n := n.count
    let pos := n.predictPos kv.key
    if n.isNone pos then return (.node (n.place pos kv), false, 1)
    else match n.isChild pos, n.items[pos]? with
      | false, some (.data key value) => do
        let c ← buildTreeTwo fit kv ⟨key, value⟩
        return (.node ((n.replaceData pos (.node c)).countToData true), true, 1)
      | true, some (.child c) => do
        let (c, toData, pathSize) ← insertDown kv fuel c
        return (.node ((n.setChild pos c).countToData toData), toData, pathSize + 1)
      | _, _ => fail .access

/-- A node is built anew from its keys. -/
def rebuild (n : Node K (Tree K)) : Alloc K (Tree K) := do
  let kvs ← scanAndDestroyTree n
  buildTreeBulk fit kvs.length kvs

/-- The first node on the path that needs a rebuild gets one. -/
def rebuildPath (key : K) : Nat → Tree K → Alloc K (Tree K)
  | 0, t => pure t
  | pathSize + 1, .node n =>
    if n.needRebuild then rebuild fit n
    else if pathSize = 0 then pure (.node n)
    else match n.items[n.predictPos key]? with
      | some (.child c) => do
        let c ← rebuildPath key pathSize c
        return .node (n.setChild (n.predictPos key) c)
      | _ => fail .access

/-- `insert_tree` -/
def insertTree (t : Tree K) (kv : KeyValue K) : Alloc K (Tree K) := do
  let (t, _, pathSize) ← insertDown fit kv maxDepth t
  rebuildPath fit kv.key pathSize t

/-- `bulk_load`, for the tree that it destroys. -/
def bulkLoad (root : Tree K) : List (KeyValue K) → Alloc K (Tree K)
  | [] => do
    destroyTree root
    return .node buildTreeNone
  | [kv] => do
    destroyTree root
    insertTree fit (.node buildTreeNone) kv
  | [kv₁, kv₂] => do
    destroyTree root
    return .node (← buildTreeTwo fit kv₁ kv₂)
  | kvs => do
    rtAssert .increasing ((keys kvs).IsChain (· < ·))
    destroyTree root
    buildTreeBulk fit kvs.length kvs

end Insert

section Find

variable [DecidableEq K]

mutual

/-- `find`: `none` if it reads anything but a live child or data, `some none` if the key is
not found. -/
def Tree.find (key : K) : Tree K → Option (Option UInt64)
  | .node n@⟨_, _, _, _, _, _, _, _, items, _, _⟩ =>
    let pos := n.predictPos key
    findItems key (n.isNone pos) (n.isChild pos) pos items

def findItems (key : K) (isNone isChild : Bool) : Nat → List (Item K (Tree K)) →
    Option (Option UInt64)
  | _, [] => none
  | 0, item :: _ => findItem key isNone isChild item
  | pos + 1, _ :: items => findItems key isNone isChild pos items

def findItem (key : K) : Bool → Bool → Item K (Tree K) → Option (Option UInt64)
  | _, true, .child c => c.find key
  | _, true, _ => none
  | true, false, _ => some none
  | false, false, .data k value => some (if k = key then some value else none)
  | false, false, _ => none

end

end Find

/-- `LIPP` -/
structure LIPP (K : Type u) where
  root : Tree K
  pendingTwo : Pool K

namespace LIPP

def new : LIPP K := ⟨.node buildTreeNone, []⟩

variable [LinearOrder K] (fit : Fit K)

/-- `Lipp::Build` -/
def build (lipp : LIPP K) (data : List (KeyValue K)) : Run (LIPP K) := do
  let (root, pool) ← bulkLoad fit lipp.root data lipp.pendingTwo
  return ⟨root, pool⟩

/-- `Lipp::Insert` -/
def insert (lipp : LIPP K) (kv : KeyValue K) : Run (LIPP K) := do
  let (root, pool) ← insertTree fit lipp.root kv lipp.pendingTwo
  return ⟨root, pool⟩

/-- `Lipp::EqualityLookup`; `none` if `find` reads what it should not. -/
def equalityLookup (lipp : LIPP K) (key : K) : Option UInt64 :=
  (lipp.root.find key).map fun value => value.getD Util.notFound

end LIPP

section Iterator

/-- A node, the byte of its bitmaps the iterator is in, and the items left in that byte. -/
structure StackTuple (K : Type u) where
  node : Node K (Tree K)
  index : Nat
  oneBitmap : Byte

abbrev Stack (K : Type u) := List (StackTuple K)

/-- A pointer to an item. -/
structure Position (K : Type u) where
  node : Node K (Tree K)
  item : Nat

/-- Reading the key and the value; `none` outside of the items, or where they are not. -/
def Position.read (p : Position K) : Option (KeyValue K) :=
  match p.node.items[p.item]? with
  | some (.data key value) => some ⟨key, value⟩
  | _ => none

/-- `bitmap_next_1`, with `fuel` bytes behind `index`. -/
def bitmapNext1 (n : Node K N) : Nat → Nat → Byte → Nat × Byte
  | 0, index, one => (index, one)
  | fuel + 1, index, one =>
    if one = 0 then bitmapNext1 n fuel (index + 1) (~~~n.noneBitmap.byte (index + 1))
    else (index, one)

/-- One round of `advance_stack`: the next item of the node on top, if there is one; a child
is pushed. -/
def advanceTop (tuple : StackTuple K) (stack : Stack K) : Option (Option (Position K) × Stack K) :=
  let n := tuple.node
  let (index, one) := bitmapNext1 n (Bitmap.size n.numItems - 1 - tuple.index) tuple.index tuple.oneBitmap
  match Bitmap.next one with
  | none => some (none, stack)
  | some next =>
    let newI := index * 8 + next
    let stack := ⟨n, index, one - Bitmap.bit next⟩ :: stack
    if n.isChild newI = false then some (some ⟨n, newI⟩, stack)
    else match n.items[newI]? with
      | some (.child (.node c)) => some (none, ⟨c, 0, ~~~c.noneBitmap.byte 0⟩ :: stack)
      | _ => none

/-- `advance_stack`, for at most `fuel` rounds; it leaves `it` null when the stack is empty. -/
def advanceStack : Nat → Stack K → Option (Option (Position K) × Stack K)
  | _, [] => some (none, [])
  | 0, _ => none
  | fuel + 1, tuple :: stack => do
    match ← advanceTop tuple stack with
    | (some p, stack) => return (some p, stack)
    | (none, stack) => advanceStack fuel stack

structure Iterator (K : Type u) where
  stack : Stack K
  it : Option (Position K)

def Iterator.next (fuel : Nat) (iter : Iterator K) : Option (Iterator K) := do
  let (it, stack) ← advanceStack fuel iter.stack
  return ⟨stack, it⟩

variable [LinearOrder K]

/-- The tuple that `lower_bound` pushes for a node: the items behind the predicted one. -/
def descendTuple (n : Node K (Tree K)) (pos : Nat) : StackTuple K :=
  ⟨n, pos / 8, ~~~(n.noneBitmap.byte (pos / 8) ||| BitVec.ofNat 8 (2 ^ (pos % 8 + 1) - 1))⟩

mutual

/-- The descent of `lower_bound`: the stack, and the node and item where it ends. -/
def Tree.descend (key : K) (stack : Stack K) : Tree K → Option (Stack K × Position K)
  | .node n@⟨_, _, _, _, _, _, _, _, items, _, _⟩ =>
    let pos := n.predictPos key
    let stack := descendTuple n pos :: stack
    if n.isChild pos then descendItems key stack pos items else some (stack, ⟨n, pos⟩)

def descendItems (key : K) (stack : Stack K) : Nat → List (Item K (Tree K)) →
    Option (Stack K × Position K)
  | _, [] => none
  | 0, item :: _ => descendItem key stack item
  | pos + 1, _ :: items => descendItems key stack pos items

def descendItem (key : K) (stack : Stack K) : Item K (Tree K) → Option (Stack K × Position K)
  | .child c => c.descend key stack
  | _ => none

end

/-- `lower_bound` -/
def lowerBound (fuel : Nat) (t : Tree K) (key : K) : Option (Iterator K) := do
  let (stack, p) ← t.descend key []
  if p.node.isNone p.item = false then
    let kv ← p.read
    if key ≤ kv.key then return ⟨stack, some p⟩ else Iterator.next fuel ⟨stack, none⟩
  else Iterator.next fuel ⟨stack, none⟩

/-- What an iteration up to `end()` visits. -/
def collect : Nat → Iterator K → Option (List (KeyValue K))
  | _, ⟨_, none⟩ => some []
  | 0, _ => none
  | fuel + 1, ⟨stack, some p⟩ => do
    let kv ← p.read
    let iter ← Iterator.next fuel ⟨stack, some p⟩
    return kv :: (← collect fuel iter)

/-- The loop of `Lipp::RangeQuery`. -/
def rangeLoop (upperKey : K) : Nat → Iterator K → UInt64 → Option UInt64
  | _, ⟨_, none⟩, result => some result
  | 0, _, _ => none
  | fuel + 1, ⟨stack, some p⟩, result =>
    p.read.bind fun kv =>
      if kv.key ≤ upperKey then
        (Iterator.next fuel ⟨stack, some p⟩).bind fun iter =>
          rangeLoop upperKey fuel iter (result + kv.value)
      else some result

/-- `Lipp::RangeQuery`, with `fuel` rounds for each of its loops. -/
def rangeQuery (fuel : Nat) (t : Tree K) (lowerKey upperKey : K) : Option UInt64 :=
  (lowerBound fuel t lowerKey).bind fun iter => rangeLoop upperKey fuel iter 0

end Iterator

end LearnedIndex.Lipp
